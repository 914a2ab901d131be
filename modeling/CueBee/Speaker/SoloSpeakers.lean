import CueBee.Speaker.SessionExport

/-! # The store one session at a time

`answer` says what `assign` returns and what it makes of its session, without the table of
sessions.
-/
namespace CueBee.Speaker
open Cache Raising FloatOps SampleOps PyStr

namespace SpeakerSession
open SpeakerSessionStore
variable {K : Type} [SampleOps K]

/-- The result of `assign` for a quality in range, and the session after it. -/
def answer (threshold : K) (vector : List K) (quality : K) (session : SpeakerSession K) :
    Except StoreError (SpeakerId × K) × SpeakerSession K :=
  match bestMatch vector session.profiles.values (none,ofRat (-1)) with
  | none => (.error .dimensions,session)
  | some (none,bestScore) =>
    (.ok (speakerName session.nextSpeakerNumber,bestScore),addProfile vector quality session)
  | some (some best,bestScore) =>
    if lt bestScore threshold = true then
      (.ok (speakerName session.nextSpeakerNumber,bestScore),addProfile vector quality session)
    else
      let weight := FloatOps.max (ofRat (1 / 20)) quality
      let total := best.effectiveSamples + weight
      if best.centroid ≠ [] ∧ eq total (ofRat 0) = true then (.error .zeroDivision,session)
      else (.ok (best.speakerId,bestScore),{ session with
        profiles := session.profiles.set best.speakerId (blend vector weight total best) })

end SpeakerSession

namespace SpeakerSessionStore
variable {K : Type} [SampleOps K]

/-- Only the given session has changed, and it is `after` now. -/
structure Installed (store next : SpeakerSessionStore K) (sessionId : SessionId)
    (after : SpeakerSession K) : Prop where
  assignmentThreshold : next.assignmentThreshold = store.assignmentThreshold
  sessions : ∀ t, next.sessions.get? t =
    if t = sessionId then some after else store.sessions.get? t

theorem installed_put (store : SpeakerSessionStore K) (sessionId : SessionId)
    (session : SpeakerSession K) : Installed store (store.put sessionId session) sessionId session :=
  ⟨rfl,fun t => Dict.get?_set store.sessions sessionId t session⟩

theorem Installed.put {store next : SpeakerSessionStore K} {sessionId : SessionId}
    {before : SpeakerSession K} (h : Installed store next sessionId before)
    (session : SpeakerSession K) : Installed store (next.put sessionId session) sessionId session where
  assignmentThreshold := h.assignmentThreshold
  sessions t := by
    rw [(installed_put next sessionId session).sessions,h.sessions]
    by_cases ht : t = sessionId <;> simp [ht]

theorem Installed.session_self {store next : SpeakerSessionStore K} {sessionId : SessionId}
    {after : SpeakerSession K} (h : Installed store next sessionId after) :
    next.session sessionId = after := by
  rw [session,h.sessions,if_pos rfl,Option.getD_some]

theorem Installed.session_ne {store next : SpeakerSessionStore K} {sessionId t : SessionId}
    {after : SpeakerSession K} (h : Installed store next sessionId after) (ht : t ≠ sessionId) :
    next.session t = store.session t := by
  rw [session,h.sessions,if_neg ht,session]

/-- The call `x` in the state `s` has the given result and leaves the given session; the other
sessions are those of `store`. -/
structure Answers (sessionId : SessionId) (store : SpeakerSessionStore K)
    (x : EStateM StoreError (SpeakerSessionStore K) (SpeakerId × K)) (s : SpeakerSessionStore K)
    (result : Except StoreError (SpeakerId × K) × SpeakerSession K) : Prop where
  outcome : outcome x s = result.1
  installed : Installed store (after x s) sessionId result.2

section Answers
variable {sessionId : SessionId} {store s next : SpeakerSessionStore K}
  {x : EStateM StoreError (SpeakerSessionStore K) (SpeakerId × K)} {after : SpeakerSession K}

theorem Answers.of_ok {a : SpeakerId × K} (hx : x s = .ok a next)
    (h : Installed store next sessionId after) : Answers sessionId store x s (.ok a,after) :=
  ⟨outcome_ok hx,by rwa [after_ok hx]⟩

theorem Answers.of_error {e : StoreError} (hx : x s = .error e next)
    (h : Installed store next sessionId after) : Answers sessionId store x s (.error e,after) :=
  ⟨outcome_error hx,by rwa [after_error hx]⟩

end Answers

/-- A call with a quality in range answers for its session and leaves the others. -/
theorem assign_answers (sessionId : SessionId) (embedding : List K) {quality : K}
    (hquality : between 0 1 quality = true) (store : SpeakerSessionStore K) :
    Answers sessionId store (assign sessionId embedding quality) store (SpeakerSession.answer
      store.assignmentThreshold (normalize embedding) quality (store.session sessionId)) := by
  have hvalid : ¬between 0 1 quality = false := by simp [hquality]
  have hinst := installed_put store sessionId (store.session sessionId)
  cases hbest : bestMatch (normalize embedding) (store.session sessionId).profiles.values
      (none,ofRat (-1)) with
  | none =>
    simp only [SpeakerSession.answer,hbest]
    refine .of_error ?_ hinst
    simp only [assign,if_neg hvalid,bind_ok (get_apply store),hbest]
    rfl
  | some found =>
    obtain ⟨best,bestScore⟩ := found
    cases best with
    | none =>
      simp only [SpeakerSession.answer,hbest]
      refine .of_ok ?_ (installed_put _ _ _)
      simp only [assign,if_neg hvalid,bind_ok (get_apply store),hbest]
      rfl
    | some best =>
      simp only [SpeakerSession.answer,hbest]
      split
      · next hlow =>
        refine .of_ok ?_ (installed_put _ _ _)
        simp only [assign,if_neg hvalid,bind_ok (get_apply store),hbest,if_pos hlow]
        rfl
      · next hlow =>
        split
        · next hzero =>
          refine .of_error ?_ hinst
          simp only [assign,if_neg hvalid,bind_ok (get_apply store),hbest,if_neg hlow,if_pos hzero]
          rfl
        · next hzero =>
          refine .of_ok ?_ (installed_put _ _ _)
          simp only [assign,if_neg hvalid,bind_ok (get_apply store),hbest,if_neg hlow,if_neg hzero]
          rfl

theorem assign_ok {sessionId : SessionId} {embedding : List K} {quality : K}
    {store : SpeakerSessionStore K} {reply : SpeakerId × K} {after : SpeakerSession K}
    (hquality : between 0 1 quality = true) (hanswer : SpeakerSession.answer
      store.assignmentThreshold (normalize embedding) quality (store.session sessionId) =
        (.ok reply,after)) :
    ∃ next, assign sessionId embedding quality store = .ok reply next ∧
      Installed store next sessionId after := by
  obtain ⟨houtcome,hinst⟩ := assign_answers sessionId embedding hquality store
  rw [hanswer] at houtcome hinst
  cases hrun : assign sessionId embedding quality store with
  | error e next =>
    rw [outcome_error hrun] at houtcome
    cases houtcome
  | ok result next =>
    rw [outcome_ok hrun,Except.ok.injEq] at houtcome
    rw [after_ok hrun] at hinst
    subst houtcome
    exact ⟨next,rfl,hinst⟩

/-- A call with a quality out of range raises and changes nothing. -/
theorem assign_refused (sessionId : SessionId) (embedding : List K) {quality : K}
    (hquality : between 0 1 quality = false) (store : SpeakerSessionStore K) :
    assign sessionId embedding quality store = .error .quality store := by
  simp only [assign,if_pos hquality]
  rfl

end SpeakerSessionStore
end CueBee.Speaker
