import CueBee.Runtime.RuntimeRuns

/-! # Events that are abandoned half-applied

`submit_task` creates the branch before it encodes the prompt and computes the deadline. A lone
surrogate stops it at the one, an integer too large for a float at the other, and the branch
stays behind without a task. Branches of kinds that require the current version are reached by
the next event, which then cancels an unknown task.
-/
namespace CueBee.Runtime
open Cache Transcript Raising PyStr CueBeeRuntime SessionManager

/-- The text around a prompt has no surrogates. -/
theorem encode_taskPrompt_ne_none (kind : TaskKind) {prompt : PyStr}
    (h : hasSurrogate prompt = false) :
    utf8Tokenizer.encode (taskPrompt kind prompt) ≠ none := by
  have hframe : hasSurrogate (lit "\n[task:" ++ kind.value ++ lit "] ") = false := by
    cases kind <;> decide
  have hall : hasSurrogate (taskPrompt kind prompt) = false := by
    rw [hasSurrogate,taskPrompt,List.any_append,Bool.or_eq_false_iff]
    exact ⟨hframe,h⟩
  obtain ⟨bytes,hbytes⟩ := Option.ne_none_iff_exists'.mp (utf8_ne_none hall)
  simp [utf8Tokenizer,hbytes]

namespace CueBeeRuntime
variable {S : Type}

/-- The prompt of the submission has no lone surrogate and its deadline is not too large for a
float, or the submission is refused before these are looked at, or its kind does not require the
current version. -/
def CleanCall : Call → CueBeeRuntime S → Prop
  | .submitTask a, r => a.kind.currentVersion = true →
      (hasSurrogate a.prompt = false ∧ a.deadlineMs.natAbs < PyFloat.intLimit) ∨
      r.sessions.sessions.get? a.sessionId = none ∨
      r.branches.branches.get? (branchIdOf (resolvedTaskId a)) ≠ none
  | _, _ => True

theorem CleanCall.safeCall {c : Services S} (htok : c.tokenizer = utf8Tokenizer) {call : Call}
    {r : CueBeeRuntime S} (h : CleanCall call r) : SafeCall c call r := by
  cases call with
  | submitTask a =>
    intro hkind
    rcases h hkind with ⟨hp,hd⟩ | hrest
    · refine Or.inl ⟨?_,deadlineAt_ne_none.mpr hd⟩
      rw [htok]
      exact encode_taskPrompt_ne_none a.kind hp
    · exact Or.inr hrest
  | handleEvent _ | runNext _ | shedLoad _ | setGpuLoad _ => trivial

/-- The event passes the adapter and `SessionManager.apply` returns a diff. -/
def applied (c : Services S) (event : STTEvent) (r : CueBeeRuntime S) : Bool :=
  match (r.revisions.normalize event).1 with
  | none => false
  | some e =>
    match SessionManager.apply c.tokenizer e r.sessions with
    | .ok _ _ => true
    | .error _ _ => false

/-- With the invariant, an event that `apply` accepts is handled to the end. -/
theorem handleEvent_of_applied {c : Services S} (hengine : c.engine.NeverRaises)
    {r : CueBeeRuntime S} (h : Inv r) {event : STTEvent} (happlied : applied c event r = true) :
    ∃ outcome next, handleEvent c event r = .ok outcome next ∧
      ∀ j ∈ outcome.invalidatedTasks, ∃ t, r.scheduler.tasks.get? j = some t := by
  cases handled c event r with
  | dropped a hnorm hrun => simp [applied,hnorm] at happlied
  | rejected e a error m hnorm happly hrun => simp [applied,hnorm,happly] at happlied
  | accepted e a diff m hnorm happly hrun =>
    obtain ⟨-,session,hacc,hinst⟩ := apply_ok happly
    obtain ⟨outcome,next,hafter,-,-,-,hknown,-⟩ := afterApply_ok
      (r := { r with revisions := a, sessions := m }) hengine h hacc hinst
    exact ⟨outcome,next,hrun.trans hafter,hknown⟩

end CueBeeRuntime

/-- If no lone surrogate and no overflow stops a submission behind its fork, every event that
`apply` accepts is handled to the end. -/
theorem accepted_event_completes {S : Type} (engine : Engine S) (hengine : engine.NeverRaises)
    (policy : TentativePrefillPolicy) (blockSize : ℕ) (hblock : 0 < blockSize) (admissionCap : ℕ)
    (hcap : 0 < admissionCap) (e : S) (calls : List Call)
    (hclean : RunMeets (exec ⟨utf8Tokenizer,engine,policy⟩) CleanCall calls
      (init blockSize hblock admissionCap hcap e)) :
    let c : Services S := ⟨utf8Tokenizer,engine,policy⟩
    let r := runAll (exec c) calls (init blockSize hblock admissionCap hcap e)
    ∀ event, applied c event r = true → ∃ outcome next, handleEvent c event r = .ok outcome next ∧
      ∀ j ∈ outcome.invalidatedTasks, ∃ t, r.scheduler.tasks.get? j = some t := by
  intro c r event happlied
  have hstep : ∀ call (s : CueBeeRuntime S), s.Inv → CleanCall call s →
      (after (exec c call) s).Inv :=
    fun call s hs hcall => inv_exec hengine call s hs (hcall.safeCall rfl)
  have h : r.Inv := hclean.keeps hstep (inv_init blockSize hblock admissionCap hcap e)
  exact handleEvent_of_applied hengine h happlied

/-- A hint is asked for, and the transcript is revised. -/
theorem accepted_event_completes_hint :
    let c := quietServices utf8Tokenizer
    let calls : List Call := [
      .handleEvent (heard "g" 0 .appendPartial "one" (by decide) (by decide)),
      .submitTask (asked "t" .proactiveHint (lit "why"))]
    let r := runAll (exec c) calls (init 4 (by decide) 8 (by decide) ())
    ∃ outcome next,
      handleEvent c (heard "g" 1 .revisePartial "two" (by decide) (by decide)) r = .ok outcome next ∧
      ∀ j ∈ outcome.invalidatedTasks, ∃ t, r.scheduler.tasks.get? j = some t := by
  intro c calls r
  have hclean : RunMeets (exec c) CleanCall calls (init 4 (by decide) 8 (by decide) ()) :=
    ⟨trivial,fun _ => Or.inl ⟨by decide,by decide +kernel⟩,trivial⟩
  exact accepted_event_completes quietEngine quietEngine_neverRaises .standard 4 (by decide) 8
    (by decide) () calls hclean _ (by decide +kernel)

/-- A hint with a lone surrogate in its prompt, and the transcript is revised. -/
theorem surrogate_prompt_breaks_event :
    let c := quietServices utf8Tokenizer
    let calls : List Call := [
      .handleEvent (heard "g" 0 .appendPartial "one" (by decide) (by decide)),
      .submitTask (asked "t" .proactiveHint [0xd800])]
    let r := runAll (exec c) calls (init 4 (by decide) 8 (by decide) ())
    let event := heard "g" 1 .revisePartial "two" (by decide) (by decide)
    applied c event r = true ∧
    outcome (handleEvent c event) r = .error (.scheduler (.unknownTask (lit "t"))) :=
  ⟨by decide +kernel,by decide +kernel⟩

end CueBee.Runtime
