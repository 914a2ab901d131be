import CueBee.Transcript.DeliveryOrder

/-! # What a diff says about the tokens

The diff of an accepted event against the tokens of its session before and after. Whoever
removes `rollbackTokens` tokens and appends `appendedTokens` gets the new tokens.
-/
namespace CueBee.Transcript
open Cache Raising ConversationSession

/-- `k` tokens is the longest prefix that the two lists share. -/
structure LongestCommonPrefix (old new : List Token) (k : ℕ) : Prop where
  left : k ≤ old.length
  right : k ≤ new.length
  common : old.take k = new.take k
  longest : ∀ j, j ≤ old.length → j ≤ new.length → old.take j = new.take j → j ≤ k

theorem lcpLength_le (old new : List Token) :
    lcpLength old new ≤ old.length ∧ lcpLength old new ≤ new.length := by
  induction old, new using lcpLength.induct with
  | case1 x xs ys ih =>
    simp only [lcpLength,if_true,List.length_cons]
    omega
  | case2 x xs y ys hne => simp [lcpLength,hne]
  | case3 old new h => simp [lcpLength]

theorem lcpLength_longest {old new : List Token} {j : ℕ} (hold : j ≤ old.length)
    (hnew : j ≤ new.length) (h : old.take j = new.take j) : j ≤ lcpLength old new := by
  induction old generalizing new j with
  | nil => exact hold.trans (Nat.zero_le _)
  | cons x xs ih =>
    cases new with
    | nil => exact hnew.trans (Nat.zero_le _)
    | cons y ys =>
      cases j with
      | zero => exact Nat.zero_le _
      | succ j =>
        rw [List.take_succ_cons,List.take_succ_cons,List.cons.injEq] at h
        obtain ⟨rfl,h⟩ := h
        rw [lcpLength,if_pos rfl]
        exact Nat.succ_le_succ (ih (Nat.le_of_succ_le_succ hold) (Nat.le_of_succ_le_succ hnew) h)

theorem longestCommonPrefix (old new : List Token) :
    LongestCommonPrefix old new (lcpLength old new) where
  left := (lcpLength_le old new).1
  right := (lcpLength_le old new).2
  common := (take_lcpLength old new).symm
  longest _ := lcpLength_longest

theorem lcpLength_of_prefix {old new : List Token} (h : old <+: new) :
    lcpLength old new = old.length := by
  apply le_antisymm (lcpLength_le old new).1
  apply lcpLength_longest le_rfl h.length_le
  rw [List.take_length]
  exact List.prefix_iff_eq_take.mp h

namespace ConversationSession

theorem extends_iff (old new : List Token) :
    (old.length ≤ new.length ∧ new.take old.length = old) ↔ old <+: new := by
  rw [List.prefix_iff_eq_take]
  constructor
  · exact fun h => h.2.symm
  · intro h
    refine ⟨?_,h.symm⟩
    rw [h,List.length_take]
    exact Nat.min_le_right _ _

/-- An append keeps the whole tail. -/
theorem commonPrefix_append (guard : ℕ) {old new : List Token} (h : old <+: new) :
    commonPrefix guard old new = old.length := by
  rw [commonPrefix,if_pos ((extends_iff old new).mpr h),tokenLcp,if_neg (by simp)]
  exact lcpLength_of_prefix h

/-- Another revision keeps the common prefix less the guard. -/
theorem commonPrefix_revise (guard : ℕ) {old new : List Token} (h : ¬old <+: new) :
    commonPrefix guard old new = lcpLength old new - guard := by
  have hne : old ≠ new := by
    rintro rfl
    exact h List.prefix_rfl
  rw [commonPrefix,if_neg (mt (extends_iff old new).mp h),tokenLcp]
  split
  · rfl
  · next hguard =>
    have hzero : guard = 0 := by
      by_contra hpos
      exact hguard ⟨hne,hpos⟩
    rw [hzero,Nat.sub_zero]

theorem commonPrefix_le (guard : ℕ) (old new : List Token) :
    commonPrefix guard old new ≤ lcpLength old new := tokenLcp_le_lcpLength _ _ _

theorem take_commonPrefix (guard : ℕ) (old new : List Token) :
    new.take (commonPrefix guard old new) = old.take (commonPrefix guard old new) :=
  take_tokenLcp _ _ _

end ConversationSession

/-- Positions beyond a common prefix of `start` tokens and up to the longer list. -/
theorem differing_bounds {old new : List Token} {start stop : ℕ}
    (hsame : old.take start = new.take start) (hold : old.length ≤ stop) (hnew : new.length ≤ stop)
    {i : ℕ} (h : old[i]? ≠ new[i]?) : start ≤ i ∧ i < stop := by
  constructor
  · by_contra hlt
    have htake := congrArg (fun xs => xs[i]?) hsame
    simp only [List.getElem?_take,if_pos (not_le.mp hlt)] at htake
    exact h htake
  · by_contra hge
    rw [List.getElem?_eq_none (hold.trans (not_lt.mp hge)),
      List.getElem?_eq_none (hnew.trans (not_lt.mp hge))] at h
    exact h rfl

/-- Two lists behind a common part agree as far as they do by themselves. -/
theorem take_tails (committed : List Token) {old new : List Token} {k : ℕ}
    (h : new.take k = old.take k) :
    (committed ++ old).take (committed.length + k) = (committed ++ new).take (committed.length + k) := by
  rw [List.take_length_add_append,List.take_length_add_append,h]

theorem rebuild_tails (committed : List Token) {old new : List Token} {k : ℕ}
    (h : new.take k = old.take k) :
    (committed ++ old).take (committed.length + k) ++ new.drop k = committed ++ new := by
  rw [List.take_length_add_append,← h,List.append_assoc,List.take_append_drop]

theorem ConversationSession.le_changedEnd (guard : ℕ) (newTail : List Token)
    (s : ConversationSession) :
    s.commitFrontier + max s.tentativeTokens.length newTail.length ≤ s.changedEnd guard newTail := by
  rw [changedEnd]
  split
  · exact Nat.le_add_right _ _
  · exact le_rfl

/-- What the diff of an event tells of the session before and after it. -/
structure DiffSound (guard : ℕ) (event : STTEvent) (before after : ConversationSession)
    (diff : TranscriptDiff) : Prop where
  frontier : before.commitFrontier ≤ diff.changedRange.start
  agree : before.allTokens.take diff.changedRange.start = after.allTokens.take diff.changedRange.start
  rebuilt : before.allTokens.take diff.changedRange.start ++ diff.appendedTokens = after.allTokens
  differing : ∀ i, before.allTokens[i]? ≠ after.allTokens[i]? →
    diff.changedRange.start ≤ i ∧ i < diff.changedRange.stop
  rollback : diff.changedRange.start ≤ before.allTokens.length ∧
    diff.rollbackTokens = before.allTokens.length - diff.changedRange.start
  tails : diff.oldTailTokens = before.tentativeTokens ∧
    before.committedTokens ++ diff.newTailTokens = after.allTokens
  extended : diff.oldTailTokens <+: diff.newTailTokens →
    diff.changedRange.start = before.allTokens.length
  revised : ¬diff.oldTailTokens <+: diff.newTailTokens →
    ∃ k, LongestCommonPrefix diff.oldTailTokens diff.newTailTokens k ∧
      diff.changedRange.start = max before.commitFrontier (before.commitFrontier + k - guard)
  version : diff.oldVersion = before.version ∧ diff.newVersion = diff.oldVersion + 1 ∧
    diff.newVersion = after.version
  spine : before.committedTokens <+: after.committedTokens ∧
    (event.type ≠ .commitFinal → after.committedTokens = before.committedTokens)

namespace SessionManager
variable {m next : SessionManager} {tok : Tokenizer} {event : STTEvent}
  {after : ConversationSession} {diff : TranscriptDiff}

theorem revise_allTokens (event : STTEvent) (newTail : List Token) (session : ConversationSession) :
    (session.revise event newTail).allTokens = session.committedTokens ++ newTail := by
  rw [revise,allTokens]
  split
  · exact List.append_nil _
  · rfl

/-- A transcript event: the tail is compared with the new one. -/
theorem sound_transcript (guard : ℕ) (event : STTEvent) (newTail : List Token)
    (before : ConversationSession) :
    let raised := { before with version := before.version + 1 }
    DiffSound guard event before (raised.revise event newTail)
      (raised.transcriptDiff guard event newTail before.version) := by
  intro raised
  obtain ⟨hold,-⟩ := lcpLength_le before.tentativeTokens newTail
  have hkept := commonPrefix_le guard before.tentativeTokens newTail
  have htake := take_commonPrefix guard before.tentativeTokens newTail
  have hall : (raised.revise event newTail).allTokens = before.committedTokens ++ newTail :=
    revise_allTokens event newTail raised
  have hstart : (raised.transcriptDiff guard event newTail before.version).changedRange.start =
      before.committedTokens.length + commonPrefix guard before.tentativeTokens newTail := rfl
  have hlength : before.allTokens.length =
      before.committedTokens.length + before.tentativeTokens.length := List.length_append
  have hagree := take_tails before.committedTokens htake
  constructor
  · exact Nat.le_add_right _ _
  · rw [hall,hstart]
    exact hagree
  · rw [hall,hstart]
    exact rebuild_tails before.committedTokens htake
  · intro i hi
    rw [hall] at hi
    have hstop : before.committedTokens.length +
        max before.tentativeTokens.length newTail.length ≤
        (raised.transcriptDiff guard event newTail before.version).changedRange.stop :=
      (raised.le_changedEnd guard newTail).trans (le_max_right _ _)
    apply differing_bounds hagree _ _ hi
    · rw [List.length_append]
      omega
    · rw [List.length_append]
      omega
  · rw [hstart,hlength]
    constructor
    · omega
    · show before.tentativeTokens.length - commonPrefix guard before.tentativeTokens newTail = _
      omega
  · exact ⟨rfl,hall.symm⟩
  · intro (happend : before.tentativeTokens <+: newTail)
    rw [hstart,hlength,commonPrefix_append guard happend]
  · intro (hrevise : ¬before.tentativeTokens <+: newTail)
    refine ⟨lcpLength before.tentativeTokens newTail,longestCommonPrefix _ _,?_⟩
    rw [hstart,commonPrefix_revise guard hrevise]
    show before.committedTokens.length + _ =
      max before.committedTokens.length (before.committedTokens.length +
        lcpLength before.tentativeTokens newTail - guard)
    omega
  · refine ⟨rfl,rfl,?_⟩
    rw [revise]
    split <;> rfl
  · rw [revise]
    split
    · next hcommit => exact ⟨List.prefix_append _ _,fun hne => absurd hcommit hne⟩
    · exact ⟨List.prefix_rfl,fun _ => rfl⟩

/-- A metadata event: nothing is removed behind the last token. -/
theorem sound_metadata (guard : ℕ) (event : STTEvent) {before after : ConversationSession}
    (hversion : after.version = before.version + 1) (hsame : SameTranscript before after) :
    DiffSound guard event before after (after.metadataDiff event before.version) := by
  have hall : after.allTokens = before.allTokens := by
    rw [allTokens,allTokens,hsame.committedTokens,hsame.tentativeTokens]
  have hstart : (after.metadataDiff event before.version).changedRange.start =
      before.allTokens.length := by
    rw [← hall,length_allTokens]
    rfl
  constructor
  · rw [hstart,length_allTokens]
    exact Nat.le_add_right _ _
  · rw [hall]
  · rw [hstart,List.take_length,hall]
    exact List.append_nil _
  · intro i hi
    rw [hall] at hi
    exact absurd rfl hi
  · rw [hstart]
    exact ⟨le_rfl,(Nat.sub_self _).symm⟩
  · refine ⟨hsame.tentativeTokens,?_⟩
    rw [allTokens,hsame.committedTokens]
    rfl
  · exact fun _ => hstart
  · exact fun hrevise => absurd List.prefix_rfl hrevise
  · exact ⟨rfl,hversion,rfl⟩
  · rw [hsame.committedTokens]
    exact ⟨List.prefix_rfl,fun _ => rfl⟩

theorem Accepted.sound (h : Accepted tok event m after diff) :
    DiffSound m.guardTokens event (m.current event.sessionId) after diff := by
  cases h with
  | metadata after hkind hversion hsame =>
    exact sound_metadata _ event hversion ⟨hsame.1,hsame.2,hsame.3,hsame.4⟩
  | transcript newTail hkind hopen hencode => exact sound_transcript _ event newTail _

theorem guardTokens_run (tok : Tokenizer) (events : List STTEvent) (m : SessionManager) :
    (runAll (apply tok) events m).guardTokens = m.guardTokens := by
  refine runAll_keeps (I := fun next : SessionManager => next.guardTokens = m.guardTokens)
    (fun event k hk => ?_) events rfl
  cases hx : apply tok event k with
  | ok diff next =>
    obtain ⟨-,session,-,hinst⟩ := apply_ok hx
    rw [after_ok hx,hinst.guardTokens,hk]
  | error e next =>
    rw [after_error hx]
    rcases apply_error hx with hinst | hinst
    · rw [hinst.guardTokens,hk]
    · rw [hinst.guardTokens,hk]

/-- Every accepted event of every run: the diff tells the tokens before and after apart. -/
theorem diff_sound (tok : Tokenizer) (guard : ℕ) (events : List STTEvent) (event : STTEvent)
    (h : apply tok event (runAll (apply tok) events (init guard)) = .ok diff next) :
    DiffSound guard event ((runAll (apply tok) events (init guard)).current event.sessionId)
      (next.current event.sessionId) diff := by
  obtain ⟨-,session,haccepted,hinst⟩ := apply_ok h
  have hsound := haccepted.sound
  rw [guardTokens_run] at hsound
  rw [hinst.current_self]
  exact hsound

/-- A partial that is committed with one more letter. -/
theorem diff_sound_commit : ∃ diff next,
    apply utf8Tokenizer firstFinal (runAll (apply utf8Tokenizer) [firstPartial] (init 1)) =
      .ok diff next ∧ diff.rollbackTokens = 0 ∧
    DiffSound 1 firstFinal
      ((runAll (apply utf8Tokenizer) [firstPartial] (init 1)).current firstFinal.sessionId)
      (next.current firstFinal.sessionId) diff := by
  obtain ⟨diff,next,hrun,hrollback⟩ := exists_of_outcome (f := fun d => d.rollbackTokens) (b := 0)
    (show (outcome (apply utf8Tokenizer firstFinal)
      (runAll (apply utf8Tokenizer) [firstPartial] (init 1))).map _ = _ by decide +kernel)
  exact ⟨diff,next,hrun,hrollback,diff_sound utf8Tokenizer 1 [firstPartial] firstFinal hrun⟩

end SessionManager
end CueBee.Transcript
