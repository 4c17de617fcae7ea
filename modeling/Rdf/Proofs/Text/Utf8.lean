import Mathlib.Algebra.Group.Nat.Defs
import Mathlib.Data.List.Basic
import Rdf.Text.Utf8

/-!
The decoder of UTF-8 undoes the encoding.

Behind its lead byte, a character is written in sixes of bits. A partial sequence reaches the
characters whose bits it has read and whose next six bits lie in its range. Bytes decode to a text
exactly where they are its encoding.
-/

namespace Rdf.Utf8

/-! ### Characters in bytes -/

/-- How many bytes follow the lead byte of a code point. -/
def followers (n : Nat) : Nat :=
  if n < 0x80 then 0 else if n < 0x800 then 1 else if n < 0x10000 then 2 else 3

/-- The least lead byte that so many bytes follow. -/
def leadBase : Nat → Nat
  | 0 => 0
  | 1 => 0xC0
  | 2 => 0xE0
  | _ => 0xF0

def leadOf (n : Nat) : Nat := leadBase (followers n) + n / 64 ^ followers n

/-- The last sixes of bits of a number, each in a byte. -/
def sixes (n : Nat) : Nat → List UInt8
  | 0 => []
  | count + 1 => UInt8.ofNat (0x80 + n / 64 ^ count % 64) :: sixes n count

theorem isValidChar_toNat (c : Char) : c.toNat.isValidChar := c.valid

theorem toNat_ofNat {n : Nat} (h : n.isValidChar) : (Char.ofNat n).toNat = n := by
  rw [Char.ofNat, dif_pos h]
  rfl

theorem encode_eq (c : Char) :
    String.utf8EncodeChar c = UInt8.ofNat (leadOf c.toNat) :: sixes c.toNat (followers c.toNat) := by
  have hvalue : c.val.toNat = c.toNat := rfl
  have hvalid := isValidChar_toNat c
  simp only [String.utf8EncodeChar, hvalue, leadOf, followers]
  generalize c.toNat = n at hvalid ⊢
  have hlt : n < 0x110000 := by
    simp only [Nat.isValidChar] at hvalid
    omega
  by_cases h1 : n < 0x80
  · have h1' : n ≤ 127 := by omega
    simp [h1, h1', leadBase, sixes]
  by_cases h2 : n < 0x800
  · have h : ¬n ≤ 127 ∧ n ≤ 2047 ∧ n / 64 % 32 = n / 64 := by omega
    simp [h1, h2, h, leadBase, sixes, Nat.add_comm]
  by_cases h3 : n < 0x10000
  · have h : ¬n ≤ 127 ∧ ¬n ≤ 2047 ∧ n ≤ 65535 ∧ n / 4096 % 16 = n / 4096 := by omega
    simp [h1, h2, h3, h, leadBase, sixes, Nat.add_comm]
  · have h : ¬n ≤ 127 ∧ ¬n ≤ 2047 ∧ ¬n ≤ 65535 ∧ n / 262144 % 8 = n / 262144 := by omega
    simp [h1, h2, h3, h, leadBase, sixes, Nat.add_comm]

/-! ### Sequences of bytes -/

namespace Partial

/-- The number has the bits that have been read, and its next six bits lie in the range. -/
def Reaches (p : Partial) (n : Nat) : Prop :=
  p.value * 64 + (p.next.1 - 0x80) ≤ n / 64 ^ p.later ∧
    n / 64 ^ p.later ≤ p.value * 64 + (p.next.2 - 0x80)

/-- The range is one of continuation bytes, and whatever the sequence reaches is a character. -/
structure Sound (p : Partial) : Prop where
  low : 0x80 ≤ p.next.1
  nonempty : p.next.1 ≤ p.next.2
  high : p.next.2 ≤ 0xBF
  valid : ∀ n, p.Reaches n → n.isValidChar

variable {p : Partial} {byte : UInt8} {bytes : List UInt8} {text : List Char} {n position k : Nat}

/-- A byte holds the next six bits of a number that the sequence reaches if it lies in the range and
leads to these bits. -/
theorem step_iff (h : p.Sound) (n : Nat) :
    (byte = UInt8.ofNat (0x80 + n / 64 ^ p.later % 64) ∧ p.Reaches n) ↔
      (p.next.1 ≤ byte.toNat ∧ byte.toNat ≤ p.next.2) ∧
        n / 64 ^ p.later = p.value * 64 + (byte.toNat - 0x80) := by
  obtain ⟨hlow, hnonempty, hhigh, -⟩ := h
  rw [← UInt8.toNat_inj, UInt8.toNat_ofNat', Reaches]
  omega

/-- The sequence behind a byte in the range, which is not the last one. -/
def behind (p : Partial) (byte : UInt8) (later : Nat) : Partial :=
  { p with
    count := p.count + 1
    value := p.value * 64 + (byte.toNat - 0x80)
    next := continuation
    later }

theorem reaches_behind_iff (hlater : p.later = k + 1) (n : Nat) :
    (p.behind byte k).Reaches n ↔ n / 64 ^ p.later = p.value * 64 + (byte.toNat - 0x80) := by
  have hdiv : n / 64 ^ p.later = n / 64 ^ k / 64 := by
    rw [hlater, Nat.pow_succ, Nat.div_div_eq_div_mul]
  rw [hdiv]
  simp only [Reaches, behind, continuation]
  omega

theorem Sound.behind (h : p.Sound) (hlater : p.later = k + 1)
    (hrange : p.next.1 ≤ byte.toNat ∧ byte.toNat ≤ p.next.2) : (p.behind byte k).Sound := by
  refine ⟨Nat.le_refl _, (by decide : 0x80 ≤ 0xBF), Nat.le_refl _, fun n hn => h.valid n ?_⟩
  exact ((step_iff h n).2 ⟨hrange, (reaches_behind_iff hlater n).1 hn⟩).2

theorem extend_of_not_mem (hrange : ¬(p.next.1 ≤ byte.toNat ∧ byte.toNat ≤ p.next.2)) :
    ∃ fault, p.extend byte = .error fault := ⟨_, if_neg hrange⟩

theorem extend_last (hlater : p.later = 0)
    (hrange : p.next.1 ≤ byte.toNat ∧ byte.toNat ≤ p.next.2) :
    p.extend byte = .ok (.inl (Char.ofNat (p.value * 64 + (byte.toNat - 0x80)))) := by
  simp [extend, hrange, hlater]

theorem extend_behind (hlater : p.later = k + 1)
    (hrange : p.next.1 ≤ byte.toNat ∧ byte.toNat ≤ p.next.2) :
    p.extend byte = .ok (.inr (p.behind byte k)) := by
  simp [extend, hrange, hlater, behind]

end Partial

variable {bytes rest : List UInt8} {text : List Char} {p : Partial} {byte : UInt8}
  {position k : Nat}

theorem decodeFrom_of_not_mem (hrange : ¬(p.next.1 ≤ byte.toNat ∧ byte.toNat ≤ p.next.2)) :
    decodeFrom position (some p) (byte :: bytes) ≠ .ok text := by
  obtain ⟨fault, hfault⟩ := Partial.extend_of_not_mem hrange
  rw [decodeFrom]
  simp only [hfault]
  exact nofun

theorem decodeFrom_last (hlater : p.later = 0)
    (hrange : p.next.1 ≤ byte.toNat ∧ byte.toNat ≤ p.next.2) :
    decodeFrom position (some p) (byte :: bytes) =
      (decodeFrom (position + 1) none bytes).map
        (Char.ofNat (p.value * 64 + (byte.toNat - 0x80)) :: ·) := by
  rw [decodeFrom]
  simp only [Partial.extend_last hlater hrange]
  cases decodeFrom (position + 1) none bytes <;> rfl

theorem decodeFrom_behind (hlater : p.later = k + 1)
    (hrange : p.next.1 ≤ byte.toNat ∧ byte.toNat ≤ p.next.2) :
    decodeFrom position (some p) (byte :: bytes) =
      decodeFrom (position + 1) (some (p.behind byte k)) bytes := by
  rw [decodeFrom]
  simp only [Partial.extend_behind hlater hrange]
  rfl

theorem map_cons_eq_ok {c : Char} {r : Except Fault (List Char)} :
    r.map (c :: ·) = .ok text ↔ ∃ later, text = c :: later ∧ r = .ok later := by
  cases r <;> simp [Except.map, eq_comm]

/-- Inside of a sequence, bytes decode where they complete it to a character and the rest of them
decodes. -/
theorem decodeFrom_some_iff (h : p.Sound) :
    decodeFrom position (some p) bytes = .ok text ↔
      ∃ (c : Char) (rest : List UInt8) (later : List Char), text = c :: later ∧
        bytes = sixes c.toNat (p.later + 1) ++ rest ∧ p.Reaches c.toNat ∧
          decodeFrom (position + (p.later + 1)) none rest = .ok later := by
  -- By induction on the bytes that are still to come behind the next one.
  generalize hk : p.later = k
  induction k generalizing p bytes position with
  | zero =>
    cases bytes with
    | nil => simp [decodeFrom, sixes]
    | cons byte bytes =>
      have hstep := @Partial.step_iff p byte h
      simp only [hk, Nat.pow_zero, Nat.div_one] at hstep
      simp only [sixes, Nat.pow_zero, Nat.div_one, List.cons_append, List.nil_append,
        List.cons.injEq]
      by_cases hrange : p.next.1 ≤ byte.toNat ∧ byte.toNat ≤ p.next.2
      · rw [decodeFrom_last hk hrange, map_cons_eq_ok]
        constructor
        · rintro ⟨later, rfl, hlater⟩
          obtain ⟨hbyte, hreaches⟩ := (hstep _).2 ⟨hrange, rfl⟩
          have hvalue := toNat_ofNat (h.valid _ hreaches)
          exact ⟨_, bytes, later, rfl, ⟨by simpa only [hvalue] using hbyte, rfl⟩,
            by simpa only [hvalue] using hreaches, hlater⟩
        · rintro ⟨c, rest, later, rfl, ⟨hbyte, rfl⟩, hreaches, hlater⟩
          rw [← ((hstep _).1 ⟨hbyte, hreaches⟩).2, Char.ofNat_toNat]
          exact ⟨later, rfl, hlater⟩
      · refine iff_of_false (decodeFrom_of_not_mem hrange) ?_
        rintro ⟨c, rest, later, -, ⟨hbyte, -⟩, hreaches, -⟩
        exact hrange ((hstep _).1 ⟨hbyte, hreaches⟩).1
  | succ k ih =>
    cases bytes with
    | nil => simp [decodeFrom, sixes]
    | cons byte bytes =>
      have hstep := @Partial.step_iff p byte h
      rw [hk] at hstep
      simp only [show ∀ n, sixes n (k + 1 + 1) =
        UInt8.ofNat (0x80 + n / 64 ^ (k + 1) % 64) :: sixes n (k + 1) from fun _ => rfl,
        List.cons_append, List.cons.injEq]
      by_cases hrange : p.next.1 ≤ byte.toNat ∧ byte.toNat ≤ p.next.2
      · have hbehind := @Partial.reaches_behind_iff p byte _ hk
        rw [hk] at hbehind
        rw [decodeFrom_behind hk hrange, ih (h.behind hk hrange) rfl]
        refine exists_congr fun c => exists_congr fun rest => exists_congr fun later => ?_
        rw [hbehind, show position + 1 + (k + 1) = position + (k + 1 + 1) by omega]
        have := hstep c.toNat
        tauto
      · refine iff_of_false (decodeFrom_of_not_mem hrange) ?_
        rintro ⟨c, rest, later, -, ⟨hbyte, -⟩, hreaches, -⟩
        exact hrange ((hstep _).1 ⟨hbyte, hreaches⟩).1

/-! ### Lead bytes -/

/-- What a lead byte begins fits a character: it is the character, or a sequence that reaches it. -/
def Fits (c : Char) : Char ⊕ Partial → Prop
  | .inl d => c = d
  | .inr p => p.Reaches c.toNat

theorem sound_of_ofLead (h : Partial.ofLead position byte = .ok (.inr p)) : p.Sound := by
  simp only [Partial.ofLead] at h
  split_ifs at h <;> cases h <;>
    refine ⟨?_, ?_, ?_, fun n hn => ?_⟩ <;>
    simp only [Partial.Reaches, continuation, Nat.isValidChar, Nat.reducePow, Nat.pow_zero,
      Nat.pow_one] at * <;>
    omega

theorem lead_cases (n : Nat) :
    (n < 0x80 ∧ followers n = 0 ∧ leadOf n = n) ∨
    (0x80 ≤ n ∧ n < 0x800 ∧ followers n = 1 ∧ leadOf n = 0xC0 + n / 64) ∨
    (0x800 ≤ n ∧ n < 0x10000 ∧ followers n = 2 ∧ leadOf n = 0xE0 + n / 64 ^ 2) ∨
    (0x10000 ≤ n ∧ followers n = 3 ∧ leadOf n = 0xF0 + n / 64 ^ 3) := by
  simp only [leadOf, followers]
  split_ifs <;> simp [leadBase] <;> omega

theorem eq_ofNat_iff {c : Char} (hbyte : byte.toNat < 0x80) :
    c = Char.ofNat byte.toNat ↔ c.toNat = byte.toNat := by
  have hvalue : (Char.ofNat byte.toNat).toNat = byte.toNat := toNat_ofNat (.inl (by omega))
  rw [← hvalue, Char.toNat_inj, hvalue]

theorem ofLead_iff (c : Char) :
    (∃ read, Partial.ofLead position byte = .ok read ∧ Fits c read) ↔
      byte = UInt8.ofNat (leadOf c.toNat) := by
  have hvalid := isValidChar_toNat c
  have hcases := lead_cases c.toNat
  rw [← UInt8.toNat_inj, UInt8.toNat_ofNat']
  have hbyte := byte.toNat_lt
  simp only [Nat.isValidChar] at hvalid
  simp only [Partial.ofLead]
  split_ifs with h1 <;>
    simp only [Except.ok.injEq, false_and, exists_false, exists_eq_left', Fits, eq_ofNat_iff, h1,
      Partial.Reaches, continuation, Nat.pow_zero, Nat.div_one, false_iff]
  all_goals omega

theorem followers_of_fits {c : Char} {read : Char ⊕ Partial}
    (hlead : Partial.ofLead position byte = .ok read) (hfits : Fits c read) :
    followers c.toNat = read.elim (fun _ => 0) (·.later + 1) := by
  have hcases := lead_cases c.toNat
  simp only [Partial.ofLead] at hlead
  split_ifs at hlead with h1 <;> cases hlead <;>
    simp only [Fits, eq_ofNat_iff, h1, Partial.Reaches, continuation, Nat.pow_zero,
      Nat.div_one, Sum.elim_inl, Sum.elim_inr] at hfits ⊢ <;>
    omega

/-- Between two sequences, bytes decode where they begin with those of a character and the rest of
them decodes. -/
theorem decodeFrom_cons_iff :
    decodeFrom position none (byte :: bytes) = .ok text ↔
      ∃ (c : Char) (rest : List UInt8) (later : List Char), text = c :: later ∧
        byte :: bytes = String.utf8EncodeChar c ++ rest ∧
          decodeFrom (position + (followers c.toNat + 1)) none rest = .ok later := by
  have hfits := @ofLead_iff byte position
  simp only [encode_eq, List.cons_append, List.cons.injEq, ← hfits]
  rw [decodeFrom]
  cases hlead : Partial.ofLead position byte with
  | error fault => exact iff_of_false nofun (by rintro ⟨c, -, -, -, ⟨⟨_, ⟨⟩, -⟩, -⟩, -⟩)
  | ok read =>
    simp only [Except.ok.injEq, exists_eq_left']
    have hfollowers := fun c => followers_of_fits (c := c) hlead
    cases read with
    | inl d =>
      change (decodeFrom (position + 1) none bytes).map (d :: ·) = .ok text ↔ _
      rw [map_cons_eq_ok]
      constructor
      · rintro ⟨later, rfl, hlater⟩
        refine ⟨d, bytes, later, rfl, ⟨rfl, ?_⟩, ?_⟩ <;> rw [hfollowers d rfl]
        · rfl
        · exact hlater
      · rintro ⟨c, rest, later, rfl, ⟨rfl, hbytes⟩, hlater⟩
        rw [hfollowers c rfl] at hbytes hlater
        obtain rfl : bytes = rest := hbytes
        exact ⟨later, rfl, hlater⟩
    | inr p =>
      change decodeFrom (position + 1) (some p) bytes = .ok text ↔ _
      rw [decodeFrom_some_iff (sound_of_ofLead hlead)]
      have hposition : position + 1 + (p.later + 1) = position + (p.later + 1 + 1) := by omega
      refine exists_congr fun c => exists_congr fun rest => exists_congr fun later => ?_
      refine and_congr_right fun _ => ⟨?_, ?_⟩
      · rintro ⟨hbytes, hreaches, hlater⟩
        rw [hfollowers c hreaches]
        exact ⟨⟨hreaches, hbytes⟩, hposition ▸ hlater⟩
      · rintro ⟨⟨hreaches, hbytes⟩, hlater⟩
        rw [hfollowers c hreaches] at hbytes hlater
        exact ⟨hbytes, hreaches, hposition ▸ hlater⟩

theorem decodeFrom_iff :
    decodeFrom position none bytes = .ok text ↔ bytes = text.flatMap String.utf8EncodeChar := by
  induction text generalizing position bytes with
  | nil =>
    cases bytes with
    | nil => simp [decodeFrom]
    | cons byte bytes => simp [decodeFrom_cons_iff]
  | cons c later ih =>
    cases bytes with
    | nil => simp [decodeFrom, encode_eq]
    | cons byte bytes =>
      rw [decodeFrom_cons_iff, List.flatMap_cons]
      constructor
      · rintro ⟨c', rest, later', ⟨⟩, hbytes, hlater⟩
        rw [hbytes, ih.1 hlater]
      · exact fun hbytes => ⟨c, _, later, rfl, hbytes, ih.2 rfl⟩

/-! ### Texts in bytes -/

theorem toList_loop (bytes : ByteArray) (i : Nat) (read : List UInt8) :
    ByteArray.toList.loop bytes i read = read.reverse ++ bytes.data.toList.drop i := by
  fun_induction ByteArray.toList.loop bytes i read with
  | case1 i read hi ih =>
    have hi : i < bytes.data.toList.length := hi
    have hget : bytes.get! i = bytes.data.toList[i] :=
      (getElem!_pos bytes.data i hi).trans (Array.getElem_toList hi).symm
    rw [ih, List.drop_eq_getElem_cons hi, List.reverse_cons, List.append_assoc, hget]
    rfl
  | case2 i read hi =>
    rw [List.drop_eq_nil_of_le (Nat.not_lt.1 hi), List.append_nil]

theorem toList_eq_data (bytes : ByteArray) : bytes.toList = bytes.data.toList :=
  toList_loop bytes 0 []

theorem toUTF8_toList (text : String) :
    text.toUTF8.toList = text.toList.flatMap String.utf8EncodeChar := by
  rw [toList_eq_data, String.toUTF8_eq_toByteArray, ← String.utf8Encode_toList, List.utf8Encode,
    List.data_toByteArray]

/-- Bytes decode to a text exactly where they are its encoding. -/
theorem decode_eq_ok_iff {bytes : List UInt8} {text : List Char} :
    decode bytes = .ok text ↔ (String.ofList text).toUTF8.toList = bytes := by
  rw [toUTF8_toList, String.toList_ofList, decode, decodeFrom_iff, eq_comm]

end Rdf.Utf8
