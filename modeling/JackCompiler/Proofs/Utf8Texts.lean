import JackCompiler.Text.Utf8
import Mathlib.Data.List.Basic
import Mathlib.Data.String.Basic
import Mathlib.Data.UInt
import Mathlib.Tactic.SplitIfs

/-!
Texts and their bytes. Decoding accepts exactly the bytes of a text and gives that text back, and
the bytes of two texts are ordered like the texts.
-/

namespace JackCompiler.Utf8

/-! ### Numbers and their bytes -/

/-- The bytes of a number hold its digits to the base 64. -/
inductive Encodes (n : Nat) : List UInt8 → Prop
  | one {a : UInt8} : a.toNat = n → n ≤ 0x7F → Encodes n [a]
  | two {a b : UInt8} (x y : Nat) : n = x * 64 + y → a.toNat = 0xC0 + x → b.toNat = 0x80 + y →
    y < 64 → 0x80 ≤ n → n ≤ 0x7FF → Encodes n [a, b]
  | three {a b c : UInt8} (x y z : Nat) : n = (x * 64 + y) * 64 + z → a.toNat = 0xE0 + x →
    b.toNat = 0x80 + y → c.toNat = 0x80 + z → y < 64 → z < 64 → 0x800 ≤ n → n ≤ 0xFFFF →
    Encodes n [a, b, c]
  | four {a b c d : UInt8} (x y z w : Nat) : n = ((x * 64 + y) * 64 + z) * 64 + w →
    a.toNat = 0xF0 + x → b.toNat = 0x80 + y → c.toNat = 0x80 + z → d.toNat = 0x80 + w →
    y < 64 → z < 64 → w < 64 → 0x10000 ≤ n → n ≤ 0x10FFFF → Encodes n [a, b, c, d]

namespace Encodes

variable {m n : Nat} {x y : List UInt8}

theorem unique (h : Encodes n x) (k : Encodes n y) : x = y := by
  cases h <;> cases k <;> simp only [List.cons.injEq, ← UInt8.toNat_inj, and_true] <;> omega

/-- The bytes of the smaller number come first, whatever follows them. -/
theorem lt (h : Encodes m x) (k : Encodes n y) (hlt : m < n) (s t : List UInt8) :
    x ++ s < y ++ t := by
  cases h <;> cases k <;>
    simp only [List.cons_append, List.nil_append, List.cons_lt_cons_iff, UInt8.lt_iff_toNat_lt,
      ← UInt8.toNat_inj] <;> omega

theorem nil_lt (h : Encodes n x) (s : List UInt8) : [] < x ++ s := by
  cases h <;> exact List.nil_lt_cons _ _

theorem ofChar (c : Char) : Encodes c.toNat (String.utf8EncodeChar c) := by
  have hvalid : c.val.toNat.isValidChar := c.valid
  unfold Nat.isValidChar at hvalid
  rw [← Char.toNat_val]
  simp only [String.utf8EncodeChar]
  generalize c.val.toNat = v at *
  split_ifs
  · refine .one ?_ (by omega)
    rw [UInt8.toNat_ofNat']
    omega
  · refine .two (v / 64) (v % 64) ?_ ?_ ?_ ?_ ?_ ?_ <;> (try rw [UInt8.toNat_ofNat']) <;> omega
  · refine .three (v / 4096) (v / 64 % 64) (v % 64) ?_ ?_ ?_ ?_ ?_ ?_ ?_ ?_ <;>
      (try rw [UInt8.toNat_ofNat']) <;> omega
  · refine .four (v / 262144) (v / 4096 % 64) (v / 64 % 64) (v % 64) ?_ ?_ ?_ ?_ ?_ ?_ ?_ ?_ ?_
      ?_ <;> (try rw [UInt8.toNat_ofNat']) <;> omega

end Encodes

/-! ### What is read as a number -/

/-- The bytes finish the sequence, which is then read as the number. -/
def Pending.Finishes (n : Nat) (p : Pending) : List UInt8 → Prop
  | [] => False
  | b :: rest =>
    let bits := p.bits * 64 + (b.toNat - 0x80)
    p.low ≤ b ∧ b ≤ p.high ∧
      if p.owed ≤ 1 then rest = [] ∧ n = bits
      else Finishes n { start := p.start, owed := p.owed - 1, bits } rest

/-- The bytes are one sequence, which is read as the number. -/
def Reads (start n : Nat) : List UInt8 → Prop
  | [] => False
  | b :: rest =>
    match lead start b with
    | some (.inl _) => rest = [] ∧ b.toNat = n
    | some (.inr p) => p.Finishes n rest
    | none => False

section Reads

variable {n start : Nat} {x : List UInt8}

theorem Encodes.reads (hvalid : n.isValidChar) (h : Encodes n x) (start : Nat) :
    Reads start n x := by
  unfold Nat.isValidChar at hvalid
  cases h with
  | one ha =>
    simp only [Reads, lead, UInt8.le_iff_toNat_le, UInt8.reduceToNat]
    rw [if_pos (by omega)]
    exact ⟨trivial, ha⟩
  | two =>
    simp only [Reads, lead, UInt8.le_iff_toNat_le, UInt8.lt_iff_toNat_lt, ← UInt8.toNat_inj,
      UInt8.reduceToNat]
    rw [if_neg (by omega), if_neg (by omega), if_pos (by omega)]
    simp only [Pending.Finishes, UInt8.le_iff_toNat_le, UInt8.reduceToNat, le_refl, if_true,
      true_and]
    omega
  | three =>
    simp only [Reads, lead, UInt8.le_iff_toNat_le, UInt8.lt_iff_toNat_lt, ← UInt8.toNat_inj,
      UInt8.reduceToNat]
    rw [if_neg (by omega), if_neg (by omega), if_neg (by omega)]
    split_ifs <;>
      simp only [Pending.Finishes, UInt8.le_iff_toNat_le, UInt8.reduceToNat, Nat.reduceLeDiff,
        ↓reduceIte, Nat.add_one_sub_one, le_refl, true_and] <;> omega
  | four =>
    simp only [Reads, lead, UInt8.le_iff_toNat_le, UInt8.lt_iff_toNat_lt, ← UInt8.toNat_inj,
      UInt8.reduceToNat]
    rw [if_neg (by omega), if_neg (by omega), if_neg (by omega), if_neg (by omega),
      if_neg (by omega), if_neg (by omega)]
    split_ifs <;>
      simp only [Pending.Finishes, UInt8.le_iff_toNat_le, UInt8.reduceToNat, Nat.reduceLeDiff,
        ↓reduceIte, Nat.add_one_sub_one, le_refl, true_and] <;> omega

/-- The last byte of a sequence. -/
theorem Pending.Finishes.one {p : Pending} (h : p.Finishes n x) (howed : p.owed = 1) :
    ∃ b, x = [b] ∧ p.low.toNat ≤ b.toNat ∧ b.toNat ≤ p.high.toNat ∧
      n = p.bits * 64 + (b.toNat - 0x80) := by
  cases x with
  | nil => cases h
  | cons b rest =>
    obtain ⟨hlow, hhigh, hend⟩ := h
    rw [if_pos howed.le] at hend
    exact ⟨b, by rw [hend.1], hlow, hhigh, hend.2⟩

/-- A byte with more to come, which are not restricted. -/
theorem Pending.Finishes.next {p : Pending} {owed : Nat} (h : p.Finishes n x)
    (howed : p.owed = owed + 2) :
    ∃ b rest, x = b :: rest ∧ p.low.toNat ≤ b.toNat ∧ b.toNat ≤ p.high.toNat ∧
      Finishes n { start := p.start, owed := owed + 1, bits := p.bits * 64 + (b.toNat - 0x80) }
        rest := by
  cases x with
  | nil => cases h
  | cons b rest =>
    obtain ⟨hlow, hhigh, hmore⟩ := h
    rw [if_neg (by omega), howed] at hmore
    exact ⟨b, rest, rfl, hlow, hhigh, hmore⟩

theorem Pending.Finishes.two {p : Pending} (h : p.Finishes n x) (howed : p.owed = 2) :
    ∃ b c, x = [b, c] ∧ p.low.toNat ≤ b.toNat ∧ b.toNat ≤ p.high.toNat ∧
      0x80 ≤ c.toNat ∧ c.toNat ≤ 0xBF ∧
      n = (p.bits * 64 + (b.toNat - 0x80)) * 64 + (c.toNat - 0x80) := by
  obtain ⟨b, rest, rfl, hlow, hhigh, hmore⟩ := h.next howed
  obtain ⟨c, rfl, hc, hc', hn⟩ := hmore.one rfl
  exact ⟨b, c, rfl, hlow, hhigh, hc, hc', hn⟩

theorem Pending.Finishes.three {p : Pending} (h : p.Finishes n x) (howed : p.owed = 3) :
    ∃ b c d, x = [b, c, d] ∧ p.low.toNat ≤ b.toNat ∧ b.toNat ≤ p.high.toNat ∧
      0x80 ≤ c.toNat ∧ c.toNat ≤ 0xBF ∧ 0x80 ≤ d.toNat ∧ d.toNat ≤ 0xBF ∧
      n = ((p.bits * 64 + (b.toNat - 0x80)) * 64 + (c.toNat - 0x80)) * 64 + (d.toNat - 0x80) := by
  obtain ⟨b, rest, rfl, hlow, hhigh, hmore⟩ := h.next howed
  obtain ⟨c, d, rfl, hc, hc', hd, hd', hn⟩ := hmore.two rfl
  exact ⟨b, c, d, rfl, hlow, hhigh, hc, hc', hd, hd', hn⟩

/-- A byte that is a character of its own. -/
theorem lead_inl {b : UInt8} {c : Char} (h : lead start b = some (.inl c)) :
    c = Char.ofNat b.toNat ∧ b.toNat ≤ 0x7F := by
  unfold lead at h
  simp only at h
  split_ifs at h with hsmall <;> cases h
  exact ⟨rfl, UInt8.le_iff_toNat_le.1 hsmall⟩

/-- What the first byte of a longer sequence says of the others. -/
theorem lead_inr {b : UInt8} {p : Pending} (h : lead start b = some (.inr p)) :
    0x80 ≤ p.low.toNat ∧ p.high.toNat ≤ 0xBF ∧
      (p.owed = 1 ∧ b.toNat = 0xC0 + p.bits ∧ 2 ≤ p.bits ∧ p.bits < 32 ∨
        p.owed = 2 ∧ b.toNat = 0xE0 + p.bits ∧ p.bits < 16 ∧
          (p.bits = 0 → 0xA0 ≤ p.low.toNat) ∧ (p.bits = 13 → p.high.toNat ≤ 0x9F) ∨
        p.owed = 3 ∧ b.toNat = 0xF0 + p.bits ∧ p.bits ≤ 4 ∧
          (p.bits = 0 → 0x90 ≤ p.low.toNat) ∧ (p.bits = 4 → p.high.toNat ≤ 0x8F)) := by
  unfold lead at h
  simp only at h
  split_ifs at h <;> cases h <;>
    simp only [UInt8.le_iff_toNat_le, UInt8.lt_iff_toNat_lt, ← UInt8.toNat_inj,
      UInt8.reduceToNat, true_and] at * <;> omega

/-- What is read as a number is its bytes, and the number is a character. -/
theorem Reads.encodes (h : Reads start n x) : Encodes n x ∧ n.isValidChar := by
  unfold Nat.isValidChar
  cases x with
  | nil => cases h
  | cons a rest =>
    cases hlead : lead start a with
    | none => simp only [Reads, hlead] at h
    | some begun =>
      cases begun with
      | inl c =>
        simp only [Reads, hlead] at h
        obtain ⟨rfl, rfl⟩ := h
        obtain ⟨-, hsmall⟩ := lead_inl hlead
        exact ⟨.one rfl hsmall, by omega⟩
      | inr p =>
        simp only [Reads, hlead] at h
        obtain ⟨hlow, hhigh, ⟨howed, ha, hbits⟩ | ⟨howed, ha, hbits⟩ | ⟨howed, ha, hbits⟩⟩ :=
          lead_inr hlead
        · obtain ⟨b, rfl, hb, hb', hn⟩ := h.one howed
          exact ⟨.two p.bits (b.toNat - 0x80) hn ha (by omega) (by omega) (by omega) (by omega),
            by omega⟩
        · obtain ⟨b, c, rfl, hb, hb', hc, hc', hn⟩ := h.two howed
          exact ⟨.three p.bits (b.toNat - 0x80) (c.toNat - 0x80) hn ha (by omega) (by omega)
            (by omega) (by omega) (by omega) (by omega), by omega⟩
        · obtain ⟨b, c, d, rfl, hb, hb', hc, hc', hd, hd', hn⟩ := h.three howed
          exact ⟨.four p.bits (b.toNat - 0x80) (c.toNat - 0x80) (d.toNat - 0x80) hn ha (by omega)
            (by omega) (by omega) (by omega) (by omega) (by omega) (by omega) (by omega), by omega⟩

end Reads

/-! ### Decoding -/

section Decoding

variable {n : Nat} {x : List UInt8} {read chars : List Char} {index : Nat} {bytes : List UInt8}

theorem decodeFrom_finishes {p : Pending} (h : p.Finishes n x) (read : List Char) (index : Nat)
    (rest : List UInt8) :
    decodeFrom read (some p) index (x ++ rest) =
      decodeFrom (Char.ofNat n :: read) none (index + x.length) rest := by
  induction x generalizing p index with
  | nil => cases h
  | cons b more ih =>
    obtain ⟨hlow, hhigh, hmore⟩ := h
    rw [List.cons_append, decodeFrom, if_pos ⟨hlow, hhigh⟩]
    split at hmore
    · rename_i howed
      obtain ⟨rfl, hn⟩ := hmore
      simp only [if_pos howed, hn, List.nil_append, List.length_singleton]
    · rename_i howed
      simp only [if_neg howed, ih hmore, List.length_cons, Nat.add_right_comm, Nat.add_assoc]

theorem decodeFrom_reads (h : Reads index n x) (read : List Char) (rest : List UInt8) :
    decodeFrom read none index (x ++ rest) =
      decodeFrom (Char.ofNat n :: read) none (index + x.length) rest := by
  cases x with
  | nil => cases h
  | cons b more =>
    rw [List.cons_append, decodeFrom]
    cases hlead : lead index b with
    | none => simp only [Reads, hlead] at h
    | some begun =>
      cases begun with
      | inl c =>
        simp only [Reads, hlead] at h
        obtain ⟨rfl, rfl⟩ := h
        simp only [(lead_inl hlead).1, List.nil_append, List.length_singleton]
      | inr p =>
        simp only [Reads, hlead] at h
        simp only [decodeFrom_finishes h, List.length_cons, Nat.add_assoc, Nat.add_comm 1]

theorem exists_finishes {p : Pending} (h : decodeFrom read (some p) index bytes = .ok chars) :
    ∃ n x rest, bytes = x ++ rest ∧ p.Finishes n x ∧
      decodeFrom (Char.ofNat n :: read) none (index + x.length) rest = .ok chars := by
  induction bytes generalizing p index with
  | nil =>
    rw [decodeFrom] at h
    cases h
  | cons b more ih =>
    rw [decodeFrom] at h
    split at h
    · rename_i hrange
      split at h
      · rename_i howed
        exact ⟨_, [b], more, rfl, ⟨hrange.1, hrange.2, by rw [if_pos howed]; exact ⟨rfl, rfl⟩⟩, h⟩
      · rename_i howed
        obtain ⟨n, x, rest, rfl, hfinishes, hrest⟩ := ih h
        refine ⟨n, b :: x, rest, rfl, ⟨hrange.1, hrange.2, by rwa [if_neg howed]⟩, ?_⟩
        rwa [List.length_cons, Nat.add_comm _ 1, ← Nat.add_assoc]
    · cases h

/-- Decoding succeeds at the end of the bytes or behind a sequence. -/
theorem exists_reads (h : decodeFrom read none index bytes = .ok chars) :
    bytes = [] ∧ chars = read.reverse ∨
      ∃ n x rest, bytes = x ++ rest ∧ Reads index n x ∧
        decodeFrom (Char.ofNat n :: read) none (index + x.length) rest = .ok chars := by
  cases bytes with
  | nil => exact .inl ⟨rfl, (Except.ok.inj h).symm⟩
  | cons b more =>
    right
    rw [decodeFrom] at h
    split at h
    · rename_i c hlead
      rw [(lead_inl hlead).1] at h
      exact ⟨b.toNat, [b], more, rfl, by simp only [Reads, hlead, and_self], h⟩
    · rename_i p hlead
      obtain ⟨n, x, rest, rfl, hfinishes, hrest⟩ := exists_finishes h
      refine ⟨n, b :: x, rest, rfl, by simpa only [Reads, hlead], ?_⟩
      rwa [List.length_cons, Nat.add_comm _ 1, ← Nat.add_assoc]
    · cases h

theorem decodeFrom_encoded (text read : List Char) (index : Nat) :
    decodeFrom read none index (text.flatMap String.utf8EncodeChar) =
      .ok (read.reverse ++ text) := by
  induction text generalizing read index with
  | nil => rw [List.flatMap_nil, decodeFrom, List.append_nil]
  | cons c rest ih =>
    have hreads : Reads index c.toNat (String.utf8EncodeChar c) :=
      (Encodes.ofChar c).reads c.valid index
    rw [List.flatMap_cons, decodeFrom_reads hreads, ih, Char.ofNat_toNat]
    simp

theorem encoded_of_decodeFrom (h : decodeFrom read none index bytes = .ok chars) :
    ∃ text, chars = read.reverse ++ text ∧ bytes = text.flatMap String.utf8EncodeChar := by
  induction hlength : bytes.length using Nat.strongRecOn generalizing read index bytes with
  | ind length ih =>
    rcases exists_reads h with ⟨rfl, rfl⟩ | ⟨n, x, rest, rfl, hreads, hrest⟩
    · exact ⟨[], (List.append_nil _).symm, rfl⟩
    · have hnonempty : x ≠ [] := by
        rintro rfl
        cases hreads
      have hshorter : rest.length < length := by
        rw [← hlength, List.length_append]
        exact Nat.lt_add_of_pos_left (List.length_pos_iff.2 hnonempty)
      obtain ⟨text, rfl, rfl⟩ := ih _ hshorter hrest rfl
      obtain ⟨hencodes, hvalid⟩ := hreads.encodes
      have hn : (Char.ofNat n).toNat = n := by
        rw [Char.ofNat, dif_pos hvalid]
        rfl
      have hx : x = String.utf8EncodeChar (Char.ofNat n) :=
        hencodes.unique (by simpa only [hn] using Encodes.ofChar (Char.ofNat n))
      exact ⟨Char.ofNat n :: text, by simp, by rw [List.flatMap_cons, ← hx]⟩

end Decoding

/-! ### Texts -/

theorem toList_loop (bytes : ByteArray) (i : Nat) (read : List UInt8) :
    ByteArray.toList.loop bytes i read = read.reverse ++ bytes.data.toList.drop i := by
  induction h : bytes.size - i generalizing i read with
  | zero =>
    have hend : ¬ i < bytes.size := by omega
    have hdrop : bytes.data.toList.length ≤ i := by
      rw [Array.length_toList]
      exact Nat.not_lt.1 hend
    rw [ByteArray.toList.loop, if_neg hend, List.drop_eq_nil_of_le hdrop, List.append_nil]
  | succ n ih =>
    have hlt : i < bytes.size := by omega
    have hlength : i < bytes.data.toList.length := by
      rwa [Array.length_toList]
    have hget : bytes.get! i = bytes.data.toList[i] := by
      rw [Array.getElem_toList]
      exact getElem!_pos bytes.data i hlt
    rw [ByteArray.toList.loop, if_pos hlt, ih (i + 1) _ (by omega),
      List.drop_eq_getElem_cons hlength, hget]
    simp

theorem toList_eq (bytes : ByteArray) : bytes.toList = bytes.data.toList := by
  rw [ByteArray.toList, toList_loop]
  rfl

theorem toList_inj {x y : ByteArray} : x.toList = y.toList ↔ x = y := by
  rw [toList_eq, toList_eq, Array.toList_inj, ByteArray.ext_iff]

/-- The bytes of a text are those of its characters. -/
theorem toList_toUTF8 (text : String) :
    text.toUTF8.toList = text.toList.flatMap String.utf8EncodeChar := by
  have hencode : text.toUTF8 = (text.toList.flatMap String.utf8EncodeChar).toByteArray := by
    rw [← List.utf8Encode, ← String.toByteArray_ofList, String.ofList_toList]
    rfl
  rw [hencode, toList_eq]
  simp

/-- Decoding gives a text back from its bytes, and accepts nothing else. -/
theorem decode_eq_ok {bytes : ByteArray} {text : String} :
    decode bytes = .ok text ↔ bytes = text.toUTF8 := by
  rw [← toList_inj, toList_toUTF8, decode]
  constructor
  · intro h
    cases hchars : decodeFrom [] none 0 bytes.toList with
    | error fault =>
      rw [hchars] at h
      cases h
    | ok chars =>
      rw [hchars] at h
      obtain ⟨read, hread, hbytes⟩ := encoded_of_decodeFrom hchars
      obtain rfl : String.ofList chars = text := Except.ok.inj h
      rw [hbytes, String.toList_ofList, hread]
      rfl
  · intro h
    rw [h, decodeFrom_encoded]
    exact congrArg Except.ok (String.ofList_toList)

/-- The bytes of two texts are ordered like the texts. -/
theorem toUTF8_lt {x y : String} (h : x < y) : x.toUTF8.toList < y.toUTF8.toList := by
  rw [toList_toUTF8, toList_toUTF8]
  have hchars : x.toList < y.toList := String.lt_iff_toList_lt.1 h
  generalize x.toList = s at *
  generalize y.toList = t at *
  induction s generalizing t with
  | nil =>
    cases t with
    | nil => cases hchars
    | cons d t =>
      rw [List.flatMap_nil, List.flatMap_cons]
      exact (Encodes.ofChar d).nil_lt _
  | cons c s ih =>
    cases t with
    | nil => cases hchars
    | cons d t =>
      rw [List.flatMap_cons, List.flatMap_cons]
      rcases List.cons_lt_cons_iff.1 hchars with hlt | ⟨rfl, hlt⟩
      · exact (Encodes.ofChar c).lt (Encodes.ofChar d) hlt _ _
      · exact List.append_left_lt (ih t hlt)

end JackCompiler.Utf8
