import CueBee.Support.Utf8
import CueBee.Transcript.EventSchema

/-! # Byte tokens can be read

`UTF8Tokenizer.decode` is never called by the runtime. It is the inverse of `encode`: it raises for
every list of tokens that is not the encoding of a text.
-/
namespace CueBee.Transcript
open Cache PyStr

/-- An item of `bytes(token_id - 1 for token_id in token_ids)`, which must be a byte. -/
def tokenByte (token : Token) : Option ℕ :=
  if 1 ≤ token ∧ token ≤ 256 then some (token - 1).toNat else none

/-- `UTF8Tokenizer.decode`; `none` stands for the exceptions. -/
def utf8Tokenizer.decode (tokens : List Token) : Option PyStr := do
  let bytes ← tokens.mapM tokenByte
  utf8Decode bytes

theorem tokenByte_eq_some {token : ℤ} {byte : ℕ} :
    tokenByte token = some byte ↔ byte < 256 ∧ (byte : ℤ) + 1 = token := by
  unfold tokenByte
  constructor
  · intro h
    split at h
    · next hrange =>
      have hlower : (1 : ℤ) ≤ token := hrange.1
      have hupper : token ≤ (256 : ℤ) := hrange.2
      have hbyte : (token - 1).toNat = byte := Option.some.inj h
      omega
    · cases h
  · rintro ⟨hlt,hbyte⟩
    have hrange : (1 : ℤ) ≤ token ∧ token ≤ (256 : ℤ) := by omega
    have hvalue : (token - 1).toNat = byte := by omega
    exact (if_pos hrange).trans (congrArg some hvalue)

theorem mapM_tokenByte {tokens : List Token} {bytes : List ℕ} :
    tokens.mapM tokenByte = some bytes ↔
      (∀ byte ∈ bytes, byte < 256) ∧ bytes.map (fun byte : ℕ => (byte : ℤ) + 1) = tokens := by
  induction tokens generalizing bytes with
  | nil =>
    constructor
    · intro h
      cases h
      exact ⟨fun _ hmem => absurd hmem List.not_mem_nil,rfl⟩
    · rintro ⟨-,hmap⟩
      rw [List.map_eq_nil_iff.mp hmap]
      rfl
  | cons token rest ih =>
    rw [List.mapM_cons]
    constructor
    · intro h
      obtain ⟨byte,hbyte,h⟩ := Option.bind_eq_some_iff.mp h
      obtain ⟨more,hmore,h⟩ := Option.bind_eq_some_iff.mp h
      cases h
      obtain ⟨hlt,rfl⟩ := tokenByte_eq_some.mp hbyte
      obtain ⟨hall,rfl⟩ := ih.mp hmore
      exact ⟨List.forall_mem_cons.mpr ⟨hlt,hall⟩,rfl⟩
    · rintro ⟨hall,hmap⟩
      cases bytes with
      | nil => cases hmap
      | cons byte more =>
        obtain ⟨hlt,hall⟩ := List.forall_mem_cons.mp hall
        obtain ⟨hbyte,hmore⟩ := List.cons.inj hmap
        rw [tokenByte_eq_some.mpr ⟨hlt,hbyte⟩,ih.mpr ⟨hall,hmore⟩]
        rfl

theorem utf8CodePoint_lt {c : CodePoint} {bytes : List ℕ} (h : utf8CodePoint c = some bytes) :
    ∀ byte ∈ bytes, byte < 256 := by
  have hc := c.isLt
  unfold utf8CodePoint at h
  split at h
  · cases h
  · split at h
    · cases h
      simp only [List.mem_cons,List.not_mem_nil,or_false,forall_eq]
      omega
    · split at h
      · cases h
        simp only [List.mem_cons,List.not_mem_nil,or_false,forall_eq_or_imp,forall_eq]
        omega
      · split at h
        · cases h
          simp only [List.mem_cons,List.not_mem_nil,or_false,forall_eq_or_imp,forall_eq]
          omega
        · cases h
          simp only [List.mem_cons,List.not_mem_nil,or_false,forall_eq_or_imp,forall_eq]
          omega

theorem utf8_lt {text : PyStr} {bytes : List ℕ} (h : utf8 text = some bytes) :
    ∀ byte ∈ bytes, byte < 256 := by
  induction text generalizing bytes with
  | nil =>
    cases h
    simp
  | cons c rest ih =>
    obtain ⟨first,hfirst,h⟩ := Option.bind_eq_some_iff.mp h
    obtain ⟨more,hmore,h⟩ := Option.bind_eq_some_iff.mp h
    cases h
    intro byte hbyte
    rcases List.mem_append.mp hbyte with hbyte | hbyte
    · exact utf8CodePoint_lt hfirst byte hbyte
    · exact ih hmore byte hbyte

theorem utf8Tokenizer.encode_eq (text : PyStr) : utf8Tokenizer.encode text =
    (utf8 text).map (fun bytes => bytes.map (fun byte : ℕ => (byte : ℤ) + 1)) := by
  have hmap : ∀ bytes : List ℕ, bytes.flatMap (fun byte : ℕ => [(byte : ℤ) + 1]) =
      bytes.map (fun byte : ℕ => (byte : ℤ) + 1) := List.flatMap_pure_eq_map _
  unfold utf8Tokenizer
  simp [List.map_flatMap,hmap]

/-- `decode` reads what `encode` gives and raises for all other tokens. -/
theorem utf8Tokenizer.decode_eq_some {tokens : List Token} {text : PyStr} :
    utf8Tokenizer.decode tokens = some text ↔ utf8Tokenizer.encode text = some tokens := by
  rw [utf8Tokenizer.encode_eq,utf8Tokenizer.decode]
  constructor
  · intro h
    obtain ⟨bytes,hbytes,htext⟩ := Option.bind_eq_some_iff.mp h
    obtain ⟨-,rfl⟩ := mapM_tokenByte.mp hbytes
    exact Option.map_eq_some_iff.mpr ⟨bytes,utf8Decode_eq_some.mp htext,rfl⟩
  · intro h
    obtain ⟨bytes,hbytes,htokens⟩ := Option.map_eq_some_iff.mp h
    exact Option.bind_eq_some_iff.mpr
      ⟨bytes,mapM_tokenByte.mpr ⟨utf8_lt hbytes,htokens⟩,utf8Decode_eq_some.mpr hbytes⟩

theorem utf8_eq_none {text : PyStr} (h : hasSurrogate text = true) : utf8 text = none := by
  induction text with
  | nil => cases h
  | cons c rest ih =>
    rw [hasSurrogate,List.any_cons,Bool.or_eq_true] at h
    rw [utf8]
    rcases h with hc | hrest
    · rw [utf8CodePoint,if_pos hc]
      rfl
    · rw [ih hrest]
      cases utf8CodePoint c <;> rfl

/-- The texts without lone surrogates are the texts that have tokens, and each token list that
`decode` takes belongs to exactly one of them. -/
theorem byte_tokens_round_trip (tokens : List Token) (text : PyStr) :
    (utf8Tokenizer.decode tokens = some text ↔ utf8Tokenizer.encode text = some tokens) ∧
    (utf8Tokenizer.encode text = none ↔ hasSurrogate text = true) := by
  refine ⟨utf8Tokenizer.decode_eq_some,?_⟩
  rw [utf8Tokenizer.encode_eq,Option.map_eq_none_iff]
  refine ⟨fun hnone => ?_,utf8_eq_none⟩
  by_contra hsurrogate
  exact utf8_ne_none (Bool.not_eq_true _ ▸ hsurrogate) hnone

end CueBee.Transcript
