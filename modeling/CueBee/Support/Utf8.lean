import CueBee.Support.PythonText

/-! # Reading UTF-8

The strict decoder accepts exactly the bytes that the encoder writes: no overlong forms, no
surrogates and nothing beyond the last code point.
-/
namespace CueBee.PyStr

/-- How many continuation bytes follow a first byte, its payload, and the least code point that
is written with so many. -/
def leadingByte (byte : ℕ) : Option (ℕ × ℕ × ℕ) :=
  if byte < 0x80 then some (0,byte,0)
  else if 0xc0 ≤ byte ∧ byte < 0xe0 then some (1,byte - 0xc0,0x80)
  else if 0xe0 ≤ byte ∧ byte < 0xf0 then some (2,byte - 0xe0,0x800)
  else if 0xf0 ≤ byte ∧ byte < 0xf8 then some (3,byte - 0xf0,0x10000)
  else none

/-- The payload with those of `n` continuation bytes, and the bytes behind them. -/
def continued (payload : ℕ) : ℕ → List ℕ → Option (ℕ × List ℕ)
  | 0, rest => some (payload,rest)
  | _ + 1, [] => none
  | n + 1, byte :: rest =>
    if 0x80 ≤ byte ∧ byte < 0xc0 then continued (payload * 64 + (byte - 0x80)) n rest else none

/-- The code point, unless it has a shorter form or none at all. -/
def checkedCodePoint (least value : ℕ) : Option CodePoint :=
  if h : value < 0x110000 then
    if least ≤ value ∧ isSurrogate ⟨value,h⟩ = false then some ⟨value,h⟩ else none
  else none

def decodeCodePoint : List ℕ → Option (CodePoint × List ℕ)
  | [] => none
  | byte :: rest => do
    let (n,payload,least) ← leadingByte byte
    let (value,rest) ← continued payload n rest
    let c ← checkedCodePoint least value
    return (c,rest)

/-- At most `fuel` code points. -/
def decodeWithin : ℕ → List ℕ → Option PyStr
  | _, [] => some []
  | 0, _ :: _ => none
  | fuel + 1, bytes => do
    let (c,rest) ← decodeCodePoint bytes
    let more ← decodeWithin fuel rest
    return c :: more

/-- `bytes.decode("utf-8")`. -/
def utf8Decode (bytes : List ℕ) : Option PyStr := decodeWithin bytes.length bytes

theorem checkedCodePoint_eq_some {least value : ℕ} {c : CodePoint} :
    checkedCodePoint least value = some c ↔ least ≤ value ∧ c.val = value ∧ isSurrogate c = false := by
  unfold checkedCodePoint
  constructor
  · intro h
    split at h
    · next hvalue =>
      split at h
      · next hchecked =>
        cases h
        exact ⟨hchecked.1,rfl,hchecked.2⟩
      · cases h
    · cases h
  · rintro ⟨hleast,rfl,hsurrogate⟩
    rw [dif_pos c.isLt,if_pos ⟨hleast,hsurrogate⟩]

theorem continued_zero {payload value : ℕ} {bytes rest : List ℕ} :
    continued payload 0 bytes = some (value,rest) ↔ payload = value ∧ bytes = rest := by
  simp only [continued,Option.some.injEq,Prod.mk.injEq]

theorem continued_eq_some {n payload value : ℕ} {bytes rest : List ℕ} :
    continued payload (n + 1) bytes = some (value,rest) ↔ ∃ byte more, bytes = byte :: more ∧
      0x80 ≤ byte ∧ byte < 0xc0 ∧
      continued (payload * 64 + (byte - 0x80)) n more = some (value,rest) := by
  cases bytes with
  | nil => simp [continued]
  | cons byte more =>
    rw [continued]
    by_cases hbyte : 0x80 ≤ byte ∧ byte < 0xc0
    · simp [hbyte]
    · rw [if_neg hbyte]
      simp only [List.cons.injEq,reduceCtorEq,false_iff]
      rintro ⟨_,_,⟨rfl,rfl⟩,hlower,hupper,-⟩
      exact hbyte ⟨hlower,hupper⟩

section FirstBytes
variable {k : ℕ}

theorem leadingByte_one (h : k < 0x80) : leadingByte k = some (0,k,0) := if_pos h

theorem leadingByte_two (h : k < 0x20) : leadingByte (0xc0 + k) = some (1,k,0x80) := by
  rw [leadingByte,if_neg (by omega),if_pos (by omega),Nat.add_sub_cancel_left]

theorem leadingByte_three (h : k < 0x10) : leadingByte (0xe0 + k) = some (2,k,0x800) := by
  rw [leadingByte,if_neg (by omega),if_neg (by omega),if_pos (by omega),Nat.add_sub_cancel_left]

theorem leadingByte_four (h : k < 0x8) : leadingByte (0xf0 + k) = some (3,k,0x10000) := by
  rw [leadingByte,if_neg (by omega),if_neg (by omega),if_neg (by omega),if_pos (by omega),
    Nat.add_sub_cancel_left]

theorem leadingByte_eq_some {byte n payload least : ℕ} (h : leadingByte byte = some (n,payload,least)) :
    (byte < 0x80 ∧ n = 0 ∧ payload = byte ∧ least = 0) ∨
    (payload < 0x20 ∧ byte = 0xc0 + payload ∧ n = 1 ∧ least = 0x80) ∨
    (payload < 0x10 ∧ byte = 0xe0 + payload ∧ n = 2 ∧ least = 0x800) ∨
    (payload < 0x8 ∧ byte = 0xf0 + payload ∧ n = 3 ∧ least = 0x10000) := by
  unfold leadingByte at h
  split at h
  · rw [Option.some.injEq,Prod.mk.injEq,Prod.mk.injEq] at h
    omega
  · split at h
    · rw [Option.some.injEq,Prod.mk.injEq,Prod.mk.injEq] at h
      omega
    · split at h
      · rw [Option.some.injEq,Prod.mk.injEq,Prod.mk.injEq] at h
        omega
      · split at h
        · rw [Option.some.injEq,Prod.mk.injEq,Prod.mk.injEq] at h
          omega
        · cases h

theorem continued_tail (payload n : ℕ) (h : k < 0x40) (rest : List ℕ) :
    continued payload (n + 1) ((0x80 + k) :: rest) = continued (payload * 64 + k) n rest := by
  rw [continued,if_pos (by omega),Nat.add_sub_cancel_left]

end FirstBytes

theorem decodeCodePoint_of {byte n payload least value : ℕ} {more rest : List ℕ} {c : CodePoint}
    (hlead : leadingByte byte = some (n,payload,least))
    (htail : continued payload n more = some (value,rest))
    (hc : checkedCodePoint least value = some c) : decodeCodePoint (byte :: more) = some (c,rest) := by
  simp only [decodeCodePoint,hlead,htail,hc,Option.bind_eq_bind,Option.bind_some,Option.pure_def]

/-- The bytes of a code point can be read back, whatever follows. -/
theorem decodeCodePoint_utf8 {c : CodePoint} {bytes : List ℕ} (h : utf8CodePoint c = some bytes)
    (rest : List ℕ) : decodeCodePoint (bytes ++ rest) = some (c,rest) := by
  have hc := c.isLt
  unfold utf8CodePoint at h
  split at h
  · cases h
  · next hsurrogate =>
    rw [Bool.not_eq_true] at hsurrogate
    split at h
    · cases h
      exact decodeCodePoint_of (leadingByte_one (by omega)) rfl
        (checkedCodePoint_eq_some.mpr ⟨by omega,rfl,hsurrogate⟩)
    · split at h
      · cases h
        refine decodeCodePoint_of (leadingByte_two (by omega))
          (continued_tail _ 0 (by omega) rest)
          (checkedCodePoint_eq_some.mpr ⟨by omega,by omega,hsurrogate⟩)
      · split at h
        · cases h
          refine decodeCodePoint_of (leadingByte_three (by omega))
            ((continued_tail _ 1 (by omega) _).trans (continued_tail _ 0 (by omega) rest))
            (checkedCodePoint_eq_some.mpr ⟨by omega,by omega,hsurrogate⟩)
        · cases h
          refine decodeCodePoint_of (leadingByte_four (by omega))
            ((continued_tail _ 2 (by omega) _).trans ((continued_tail _ 1 (by omega) _).trans
              (continued_tail _ 0 (by omega) rest)))
            (checkedCodePoint_eq_some.mpr ⟨by omega,by omega,hsurrogate⟩)

/-- What is read as a code point is how it is written. -/
theorem utf8_of_decodeCodePoint {c : CodePoint} {bytes rest : List ℕ}
    (h : decodeCodePoint bytes = some (c,rest)) :
    ∃ first, utf8CodePoint c = some first ∧ bytes = first ++ rest := by
  cases bytes with
  | nil => cases h
  | cons byte more =>
    obtain ⟨⟨n,payload,least⟩,hlead,h⟩ := Option.bind_eq_some_iff.mp h
    obtain ⟨⟨value,left⟩,htail,h⟩ := Option.bind_eq_some_iff.mp h
    obtain ⟨d,hd,h⟩ := Option.bind_eq_some_iff.mp h
    cases h
    obtain ⟨hleast,hvalue,hsurrogate⟩ := checkedCodePoint_eq_some.mp hd
    have hc := c.isLt
    rcases leadingByte_eq_some hlead with ⟨hbyte,rfl,rfl,rfl⟩ | ⟨hpayload,rfl,rfl,rfl⟩ |
      ⟨hpayload,rfl,rfl,rfl⟩ | ⟨hpayload,rfl,rfl,rfl⟩
    · obtain ⟨rfl,rfl⟩ := continued_zero.mp htail
      refine ⟨[c.val],?_,by rw [hvalue]; rfl⟩
      rw [utf8CodePoint,if_neg (by simp [hsurrogate]),if_pos (by omega)]
    · obtain ⟨b,more,rfl,hb,hb',htail⟩ := continued_eq_some.mp htail
      obtain ⟨rfl,rfl⟩ := continued_zero.mp htail
      refine ⟨[0xc0 + c.val / 64,0x80 + c.val % 64],?_,?_⟩
      · rw [utf8CodePoint,if_neg (by simp [hsurrogate]),if_neg (by omega),if_pos (by omega)]
      · simp only [List.cons_append,List.nil_append,List.cons.injEq,and_true]
        omega
    · obtain ⟨b,more,rfl,hb,hb',htail⟩ := continued_eq_some.mp htail
      obtain ⟨b2,more,rfl,hb2,hb2',htail⟩ := continued_eq_some.mp htail
      obtain ⟨rfl,rfl⟩ := continued_zero.mp htail
      refine ⟨[0xe0 + c.val / 4096,0x80 + c.val / 64 % 64,0x80 + c.val % 64],?_,?_⟩
      · rw [utf8CodePoint,if_neg (by simp [hsurrogate]),if_neg (by omega),if_neg (by omega),
          if_pos (by omega)]
      · simp only [List.cons_append,List.nil_append,List.cons.injEq,and_true]
        omega
    · obtain ⟨b,more,rfl,hb,hb',htail⟩ := continued_eq_some.mp htail
      obtain ⟨b2,more,rfl,hb2,hb2',htail⟩ := continued_eq_some.mp htail
      obtain ⟨b3,more,rfl,hb3,hb3',htail⟩ := continued_eq_some.mp htail
      obtain ⟨rfl,rfl⟩ := continued_zero.mp htail
      refine ⟨[0xf0 + c.val / 262144,0x80 + c.val / 4096 % 64,0x80 + c.val / 64 % 64,
        0x80 + c.val % 64],?_,?_⟩
      · rw [utf8CodePoint,if_neg (by simp [hsurrogate]),if_neg (by omega),if_neg (by omega),
          if_neg (by omega)]
      · simp only [List.cons_append,List.nil_append,List.cons.injEq,and_true]
        omega

theorem decodeWithin_utf8 {fuel : ℕ} {text : PyStr} {bytes : List ℕ} (h : utf8 text = some bytes)
    (hfuel : bytes.length ≤ fuel) : decodeWithin fuel bytes = some text := by
  induction text generalizing fuel bytes with
  | nil =>
    cases h
    cases fuel <;> rfl
  | cons c rest ih =>
    obtain ⟨first,hfirst,h⟩ := Option.bind_eq_some_iff.mp h
    obtain ⟨more,hmore,h⟩ := Option.bind_eq_some_iff.mp h
    cases h
    have hone : first ≠ [] := fun hnil => utf8CodePoint_ne_nil c (hnil ▸ hfirst)
    have hpos := List.length_pos_of_ne_nil hone
    rw [List.length_append] at hfuel
    obtain ⟨fuel,rfl⟩ : ∃ n, fuel = n + 1 := ⟨fuel - 1,by omega⟩
    obtain ⟨byte,others,hcons⟩ := List.exists_cons_of_ne_nil
      (List.append_ne_nil_of_left_ne_nil hone more)
    have hstep := decodeCodePoint_utf8 hfirst more
    have hread : decodeWithin fuel more = some rest := ih hmore (by omega)
    rw [hcons] at hstep ⊢
    simp only [decodeWithin,hstep,hread,Option.bind_eq_bind,Option.bind_some,Option.pure_def]

theorem utf8_of_decodeWithin {fuel : ℕ} {text : PyStr} {bytes : List ℕ}
    (h : decodeWithin fuel bytes = some text) : utf8 text = some bytes := by
  induction fuel generalizing text bytes with
  | zero =>
    cases bytes with
    | nil =>
      cases h
      rfl
    | cons byte more => cases h
  | succ fuel ih =>
    cases bytes with
    | nil =>
      cases h
      rfl
    | cons byte more =>
      obtain ⟨⟨c,rest⟩,hc,h⟩ := Option.bind_eq_some_iff.mp h
      obtain ⟨text,hrest,h⟩ := Option.bind_eq_some_iff.mp h
      cases h
      obtain ⟨first,hfirst,hbytes⟩ := utf8_of_decodeCodePoint hc
      rw [hbytes,utf8,hfirst,ih hrest]
      rfl

/-- The decoder reads what the encoder writes and nothing else. -/
theorem utf8Decode_eq_some {text : PyStr} {bytes : List ℕ} :
    utf8Decode bytes = some text ↔ utf8 text = some bytes :=
  ⟨utf8_of_decodeWithin,fun h => decodeWithin_utf8 h le_rfl⟩

end CueBee.PyStr
