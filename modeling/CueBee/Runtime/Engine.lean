import CueBee.Runtime.Scheduler
import CueBee.Transcript.SessionManager

/-! # The engine boundary and the freshness gate

The engine is not part of the program: it is any object with the four methods below.
`updateSession` is there only for an engine that knows revisions.
-/
namespace CueBee.Runtime
open Cache Transcript Raising PyStr

structure EngineRequest where
  taskId : TaskId
  sessionId : SessionId
  baseVersion : ℕ
  prompt : PyStr
  promptTokenIds : List Token
  maxOutputTokens : ℤ
deriving DecidableEq

structure EngineResult where
  requestId : PyStr
  text : PyStr
  inputTokens : ℤ
  outputTokens : ℤ
deriving DecidableEq

/-- A token-level session update; the checks of its constructor are fields. -/
@[ext] structure SessionRevisionUpdate where
  sessionId : SessionId
  version : ℕ
  replaceFrom : ℕ
  replacementTokenIds : List Token
  commitFrontier : ℕ
  tentative : Bool
  baseVersion : Option ℕ
  branchId : PyStr
  session_named : sessionId ≠ []
  branch_named : branchId ≠ []
  base_lower : ∀ b ∈ baseVersion, b < version
  replacement_present : replacementTokenIds ≠ []

instance : DecidableEq SessionRevisionUpdate :=
  fun _ _ => decidable_of_iff _ SessionRevisionUpdate.ext_iff.symm

theorem main_named : lit "main" ≠ [] := by decide

/-- The first token of session "s". -/
def oneToken : SessionRevisionUpdate :=
  ⟨lit "s",1,0,[1],0,true,none,lit "main",by decide,main_named,by simp,by decide⟩

/-- An exception of the engine. -/
structure EngineError where
  message : PyStr
deriving DecidableEq

structure Engine (S : Type) where
  prefill : SessionId → List Token → ℕ → Bool → EStateM EngineError S Unit
  generate : EngineRequest → EStateM EngineError S EngineResult
  abort : TaskId → EStateM EngineError S Bool
  updateSession : Option (SessionRevisionUpdate → EStateM EngineError S Unit)

namespace Engine
variable {S : Type}

structure NeverRaises (engine : Engine S) : Prop where
  prefill : ∀ sessionId tokenIds version tentative,
    Returns (engine.prefill sessionId tokenIds version tentative)
  generate : ∀ request, Returns (engine.generate request)
  abort : ∀ taskId, Returns (engine.abort taskId)
  updateSession : ∀ f ∈ engine.updateSession, ∀ update, Returns (f update)

/-- An engine that is told of revisions and takes every one. -/
def TakesUpdates (engine : Engine S) : Prop :=
  ∃ f, engine.updateSession = some f ∧ ∀ update, Returns (f update)

/-- A call on the engine behind a recorder. -/
def behind {α : Type} (x : EStateM EngineError S α) :
    EStateM EngineError (S × List SessionRevisionUpdate) α :=
  focus Prod.fst (fun s p => (s,p.2)) id x

/-- The same engine together with the list of the updates that were sent to it. -/
def recorded (engine : Engine S) : Engine (S × List SessionRevisionUpdate) where
  prefill sessionId tokenIds version tentative :=
    behind (engine.prefill sessionId tokenIds version tentative)
  generate request := behind (engine.generate request)
  abort taskId := behind (engine.abort taskId)
  updateSession := engine.updateSession.map (fun f update => do
    modify (fun p => (p.1,p.2 ++ [update]))
    behind (f update))

end Engine

inductive GateDecision
  | allow
  | drop
  | restart
deriving DecidableEq

/-- `FreshnessGate.evaluate`. -/
def evaluate {K : Type} (task : AnalysisTask K) (branch : Branch) (session : ConversationSession) :
    GateDecision :=
  if branch.status = .cancelled ∨ branch.status = .invalidated then
    if task.foreground = true then .restart else .drop
  else if task.requiresCurrentVersion = true ∧ task.baseVersion ≠ session.version then
    if task.foreground = true then .restart else .drop
  else if branch.includesTentative = false ∧ session.commitFrontier < branch.dependency.stop then .drop
  else .allow

theorem evaluate_allow {K : Type} {task : AnalysisTask K} {branch : Branch} {session : ConversationSession} :
    evaluate task branch session = .allow ↔
      (branch.status ≠ .cancelled ∧ branch.status ≠ .invalidated) ∧
      (task.requiresCurrentVersion = true → task.baseVersion = session.version) ∧
      (branch.includesTentative = false → branch.dependency.stop ≤ session.commitFrontier) := by
  unfold evaluate
  by_cases h1 : branch.status = .cancelled ∨ branch.status = .invalidated
  · rw [if_pos h1]
    constructor
    · intro h
      split at h <;> cases h
    · rintro ⟨⟨hc,hi⟩,-⟩
      rcases h1 with h1 | h1
      · exact absurd h1 hc
      · exact absurd h1 hi
  · rw [if_neg h1]
    have h1' := not_or.mp h1
    by_cases h2 : task.requiresCurrentVersion = true ∧ task.baseVersion ≠ session.version
    · rw [if_pos h2]
      constructor
      · intro h
        split at h <;> cases h
      · rintro ⟨-,hv,-⟩
        exact absurd (hv h2.1) h2.2
    · rw [if_neg h2]
      have h2' : task.requiresCurrentVersion = true → task.baseVersion = session.version :=
        fun hr => by_contra (fun hv => h2 ⟨hr,hv⟩)
      by_cases h3 : branch.includesTentative = false ∧
          session.commitFrontier < branch.dependency.stop
      · rw [if_pos h3]
        constructor
        · intro h
          cases h
        · rintro ⟨-,-,hf⟩
          have := hf h3.1
          omega
      · rw [if_neg h3]
        refine ⟨fun _ => ⟨h1',h2',fun hi => ?_⟩,fun _ => rfl⟩
        by_contra hf
        exact h3 ⟨hi,by omega⟩

end CueBee.Runtime
