import Mathlib.Algebra.GroupWithZero.Nat
import Mathlib.Data.List.Basic
import Mathlib.Data.Fin.Basic

/-! # Python strings

A string is a sequence of code points; unlike a Unicode text it may hold lone surrogates.
-/
namespace CueBee

abbrev CodePoint := Fin 0x110000
abbrev PyStr := List CodePoint

instance codePoint_neZero : NeZero 0x110000 := ⟨by decide⟩

namespace PyStr

/-- A string literal of the source. -/
def lit (s : String) : PyStr := s.toList.map (fun c => Fin.ofNat _ c.toNat)

/-- The code points that `str.isspace` accepts. -/
def isSpace (c : CodePoint) : Bool :=
  (0x09 ≤ c.val && c.val ≤ 0x0d) || (0x1c ≤ c.val && c.val ≤ 0x20) || c.val == 0x85 ||
  c.val == 0xa0 || c.val == 0x1680 || (0x2000 ≤ c.val && c.val ≤ 0x200a) || c.val == 0x2028 ||
  c.val == 0x2029 || c.val == 0x202f || c.val == 0x205f || c.val == 0x3000

def strip (s : PyStr) : PyStr := ((s.dropWhile isSpace).reverse.dropWhile isSpace).reverse

/-- `str.partition` at a one-character separator. -/
def partition (sep : CodePoint) (s : PyStr) : PyStr × PyStr × PyStr :=
  match s.dropWhile (· ≠ sep) with
  | [] => (s,[],[])
  | c :: rest => (s.takeWhile (· ≠ sep),[c],rest)

def join (sep : PyStr) : List PyStr → PyStr
  | [] => []
  | [s] => s
  | s :: rest => s ++ sep ++ join sep rest

/-- `str.split` at a one-character separator. -/
def split (sep : CodePoint) : PyStr → List PyStr
  | [] => [[]]
  | c :: rest =>
    if c = sep then [] :: split sep rest
    else
      match split sep rest with
      | [] => [[c]]
      | part :: parts => (c :: part) :: parts

theorem length_split (sep : CodePoint) (s : PyStr) : (split sep s).length = s.count sep + 1 := by
  induction s with
  | nil => rfl
  | cons c rest ih =>
    unfold split
    by_cases hc : c = sep
    · rw [if_pos hc,List.length_cons,ih,hc,List.count_cons_self]
    · rw [if_neg hc,List.count_cons_of_ne hc,← ih]
      cases hparts : split sep rest with
      | nil => simp [hparts] at ih
      | cons part parts => rfl

/-- `str(n)` of a natural number. -/
def decimal (n : ℕ) : PyStr := (Nat.toDigits 10 n).map (fun c => Fin.ofNat _ c.toNat)

def zfill (width : ℕ) (s : PyStr) : PyStr := List.replicate (width - s.length) 0x30 ++ s

def isSurrogate (c : CodePoint) : Bool := 0xd800 ≤ c.val && c.val ≤ 0xdfff

def hasSurrogate (s : PyStr) : Bool := s.any isSurrogate

/-- The UTF-8 bytes of one code point, and nothing for a surrogate. -/
def utf8CodePoint (c : CodePoint) : Option (List ℕ) :=
  if isSurrogate c then none
  else if c.val < 0x80 then some [c.val]
  else if c.val < 0x800 then some [0xc0 + c.val / 64,0x80 + c.val % 64]
  else if c.val < 0x10000 then
    some [0xe0 + c.val / 4096,0x80 + c.val / 64 % 64,0x80 + c.val % 64]
  else some [0xf0 + c.val / 262144,0x80 + c.val / 4096 % 64,0x80 + c.val / 64 % 64,0x80 + c.val % 64]

/-- `str.encode("utf-8")`. -/
def utf8 : PyStr → Option (List ℕ)
  | [] => some []
  | c :: rest => do
    let bytes ← utf8CodePoint c
    let more ← utf8 rest
    return bytes ++ more

theorem utf8CodePoint_ne_nil (c : CodePoint) : utf8CodePoint c ≠ some [] := by
  unfold utf8CodePoint
  split
  · simp
  · split
    · simp
    · split
      · simp
      · split <;> simp

theorem utf8_ne_none {s : PyStr} (h : hasSurrogate s = false) : utf8 s ≠ none := by
  induction s with
  | nil => simp [utf8]
  | cons c rest ih =>
    rw [hasSurrogate,List.any_cons,Bool.or_eq_false_iff] at h
    have hone : ∃ bytes, utf8CodePoint c = some bytes := by
      unfold utf8CodePoint
      rw [if_neg (by simp [h.1])]
      split
      · exact ⟨_,rfl⟩
      · split
        · exact ⟨_,rfl⟩
        · split <;> exact ⟨_,rfl⟩
    obtain ⟨bytes,hbytes⟩ := hone
    obtain ⟨more,hmore⟩ := Option.ne_none_iff_exists'.mp (ih h.2)
    simp [utf8,hbytes,hmore]

def codePoint (c : Char) : CodePoint := Fin.ofNat _ c.toNat

theorem val_codePoint (c : Char) : (codePoint c).val = c.toNat := by
  have h : c.toNat < 0x110000 := by
    rcases c.valid with h | h
    · exact Nat.lt_trans h (by decide)
    · exact h.2
  exact Nat.mod_eq_of_lt h

/-- The number that decimal digits stand for. -/
def number (s : PyStr) : ℕ := s.foldl (fun acc c => 10 * acc + (c.val - 48)) 0

theorem zfill_decimal (width n : ℕ) : zfill width (decimal n) =
    (List.replicate (width - (decimal n).length) '0' ++ Nat.toDigits 10 n).map codePoint := by
  rw [List.map_append,List.map_replicate]
  rfl

theorem number_zfill_decimal (width n : ℕ) : number (zfill width (decimal n)) = n := by
  rw [zfill_decimal,number,List.foldl_map]
  simp only [val_codePoint]
  have h := Nat.ofDigitChars_append (b := 10) (l := List.replicate (width - (decimal n).length) '0')
    (m := Nat.toDigits 10 n) 0
  rw [Nat.ofDigitChars_replicate_zero,Nat.mul_zero,Nat.ofDigitChars_ten_toDigits] at h
  exact h

/-- Decimal digits only. -/
def Digits (s : PyStr) : Prop := ∀ c ∈ s, 48 ≤ c.val ∧ c.val ≤ 57

theorem foldl_number (s : PyStr) (n : ℕ) :
    s.foldl (fun acc c => 10 * acc + (c.val - 48)) n = n * 10 ^ s.length + number s := by
  induction s generalizing n with
  | nil => simp [number]
  | cons c s ih =>
    have hfirst : number (c :: s) = (10 * 0 + (c.val - 48)) * 10 ^ s.length + number s := ih _
    rw [List.foldl_cons,ih,hfirst,List.length_cons,Nat.pow_succ,Nat.mul_zero,Nat.zero_add,
      Nat.add_mul,Nat.add_assoc]
    congr 1
    rw [Nat.mul_comm 10 n,Nat.mul_assoc,Nat.mul_comm 10]

theorem number_cons (c : CodePoint) (s : PyStr) :
    number (c :: s) = (c.val - 48) * 10 ^ s.length + number s := by
  have h : number (c :: s) = (10 * 0 + (c.val - 48)) * 10 ^ s.length + number s :=
    foldl_number s _
  rw [h,Nat.mul_zero,Nat.zero_add]

theorem number_lt {s : PyStr} (h : Digits s) : number s < 10 ^ s.length := by
  induction s with
  | nil => decide
  | cons c s ih =>
    have hc := (h c List.mem_cons_self).2
    have hs := ih (fun c hc => h c (List.mem_cons_of_mem _ hc))
    have hle : (c.val - 48) * 10 ^ s.length ≤ 9 * 10 ^ s.length := Nat.mul_le_mul_right _ (by omega)
    rw [number_cons,List.length_cons,Nat.pow_succ]
    omega

/-- Texts of digits of one length stand in the order of their numbers. -/
theorem number_lt_number {s t : PyStr} (hlength : s.length = t.length) (hs : Digits s)
    (ht : Digits t) (h : s < t) : number s < number t := by
  induction s generalizing t with
  | nil =>
    cases t with
    | nil => exact absurd h (List.lt_irrefl _)
    | cons d t => cases hlength
  | cons c s ih =>
    cases t with
    | nil => cases hlength
    | cons d t =>
      have hlength' : s.length = t.length := Nat.succ.inj hlength
      have hs' : Digits s := fun c hc => hs c (List.mem_cons_of_mem _ hc)
      have ht' : Digits t := fun c hc => ht c (List.mem_cons_of_mem _ hc)
      rw [number_cons,number_cons,hlength']
      rcases List.cons_lt_cons_iff.mp h with hlt | ⟨rfl,hlt⟩
      · have hc := (hs c List.mem_cons_self).1
        have hlt' : c.val < d.val := hlt
        have hle : (c.val - 48 + 1) * 10 ^ t.length ≤ (d.val - 48) * 10 ^ t.length :=
          Nat.mul_le_mul_right _ (by omega)
        have hbound := number_lt hs'
        rw [hlength'] at hbound
        rw [Nat.add_mul,Nat.one_mul] at hle
        omega
      · exact Nat.add_lt_add_left (ih hlength' hs' ht' hlt) _

theorem digits_zfill_decimal (width n : ℕ) : Digits (zfill width (decimal n)) := by
  rw [zfill_decimal]
  intro c hc
  obtain ⟨char,hchar,rfl⟩ := List.mem_map.mp hc
  have hdigit : char.isDigit = true := by
    rcases List.mem_append.mp hchar with hchar | hchar
    · rw [(List.mem_replicate.mp hchar).2]
      rfl
    · exact Nat.isDigit_of_mem_toDigits (by omega) (by omega) hchar
  rw [val_codePoint]
  exact Char.isDigit_iff_toNat.mp hdigit

theorem length_zfill_decimal {width n : ℕ} (hwidth : 0 < width) (h : n < 10 ^ width) :
    (zfill width (decimal n)).length = width := by
  have hle := (Nat.length_toDigits_le_iff (b := 10) (by omega) hwidth).mpr h
  rw [zfill,List.length_append,List.length_replicate,decimal,List.length_map]
  omega

end PyStr
end CueBee
