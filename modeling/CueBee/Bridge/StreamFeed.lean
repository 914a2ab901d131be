import CueBee.Bridge.ClosingStreams
import CueBee.Bridge.StreamInterleavings
import CueBee.Runtime.UpdateStream

/-! # What the consumer of a session is given

A bounded stream may be full, closed or not open, and then an update is refused; the consumers
take inputs from the streams while all this goes on. The updates of one session that were taken
are followed through the queue to the inputs that the consumer was given, also after
`close_session_nowait` has taken the stream out of the table.
-/
namespace CueBee.Bridge
open Cache Transcript CueBee.Runtime Asyncio Raising PyStr

variable {P I : Type}

/-- What the consumers were given from one stream; `yielded` has the stream of each input. -/
def inputsOf (handle : ℕ) (yielded : List (ℕ × I)) : List I :=
  (yielded.filter (fun y => y.1 = handle)).map Prod.snd

theorem inputsOf_append_self (handle : ℕ) (yielded : List (ℕ × I)) (new : List I) :
    inputsOf handle (yielded ++ new.map (fun input => (handle,input))) =
      inputsOf handle yielded ++ new := by
  simp [inputsOf,Function.comp_def,List.filter_map]

theorem inputsOf_append_ne {handle other : ℕ} (h : handle ≠ other) (yielded : List (ℕ × I))
    (new : List I) : inputsOf handle (yielded ++ new.map (fun input => (other,input))) =
      inputsOf handle yielded := by
  simp [inputsOf,Function.comp_def,List.filter_map,h.symm]

/-- The inputs are those for the first of the updates, in order, and as long as the consumer
iterates the rest of the updates is what is queued. -/
def Serves (us : List SessionRevisionUpdate) (inputs : List I) (stream : VLLMInputStream P I) : Prop :=
  ∃ delivered rest, us = delivered ++ rest ∧
    inputs.map some = delivered.map (fun u => stream.inputFactory (.revision u) stream.samplingParams) ∧
    (stream.consumer = .iterating →
      (updates stream.queue.items).map Prod.snd = rest.map VLLMStreamUpdate.revision)

namespace Serves
variable {us : List SessionRevisionUpdate} {inputs : List I} {stream : VLLMInputStream P I}

/-- Only the factory, its arguments, the consumer and the queue matter. -/
theorem congr (h : Serves us inputs stream) {t : VLLMInputStream P I}
    (hfactory : t.inputFactory = stream.inputFactory)
    (hparams : t.samplingParams = stream.samplingParams) (hconsumer : t.consumer = stream.consumer)
    (hitems : updates t.queue.items = updates stream.queue.items) : Serves us inputs t := by
  obtain ⟨delivered,rest,hus,hinputs,hqueue⟩ := h
  refine ⟨delivered,rest,hus,?_,?_⟩
  · rw [hfactory,hparams]
    exact hinputs
  · rw [hconsumer,hitems]
    exact hqueue

/-- A published update is queued behind the others, or refused. -/
theorem publish (h : Serves us inputs stream) (u : SessionRevisionUpdate) :
    Ensures (VLLMInputStream.publishNowait (.revision u)) stream
      (fun _ t => Serves (us ++ [u]) inputs t) (fun _ t => Serves us inputs t) := by
  cases hclosed : stream.closed with
  | true => exact Ensures.of_error (VLLMInputStream.publishNowait_closed _ hclosed) h
  | false =>
    have hopen := VLLMInputStream.publishNowait_open (.revision u) hclosed
    cases hfull : stream.queue.full with
    | true =>
      exact Ensures.of_error (hopen.trans (VLLMInputStream.putNowait_full _ hfull))
        (h.congr rfl rfl rfl rfl)
    | false =>
      refine Ensures.of_ok (hopen.trans (VLLMInputStream.putNowait_room _ hfull)) ?_
      obtain ⟨delivered,rest,hus,hinputs,hqueue⟩ := h
      refine ⟨delivered,rest ++ [u],by rw [hus,List.append_assoc],hinputs,fun hon => ?_⟩
      rw [updates_append,updates_update,List.map_append,hqueue hon,List.map_append]
      rfl

/-- The terminator is no update. -/
theorem close (h : Serves us inputs stream) :
    Serves us inputs (after VLLMInputStream.closeNowait stream) := by
  cases hclosed : stream.closed with
  | true => rwa [after_ok (VLLMInputStream.closeNowait_closed hclosed)]
  | false =>
    cases hfull : stream.queue.full with
    | true =>
      rw [after_error (VLLMInputStream.closeNowait_full hclosed hfull)]
      exact h.congr rfl rfl rfl rfl
    | false =>
      rw [after_ok (VLLMInputStream.closeNowait_room hclosed hfull)]
      exact h.congr rfl rfl rfl (by rw [updates_append,updates_terminator,List.append_nil])

/-- The consumer takes the first update that is queued. -/
theorem pull (h : Serves us inputs stream) : Ensures VLLMInputStream.pull stream
    (fun got t => Serves us (inputs ++ got.toList.map Prod.snd) t) (fun _ t => Serves us inputs t) := by
  obtain ⟨delivered,rest,hus,hinputs,hqueue⟩ := h
  have hcase := VLLMInputStream.pull_case stream
  generalize hp : VLLMInputStream.pull stream = result at hcase
  cases hcase with
  | idle hidle => exact Ensures.of_ok hp ⟨delivered,rest,hus,by simpa using hinputs,hqueue⟩
  | waits hon hempty => exact Ensures.of_ok hp ⟨delivered,rest,hus,by simpa using hinputs,hqueue⟩
  | ends queue hon hget =>
    refine Ensures.of_ok hp ⟨delivered,rest,hus,by simpa using hinputs,?_⟩
    rintro ⟨⟩
  | fails serial update queue hon hget hfactory =>
    refine Ensures.of_error hp ⟨delivered,rest,hus,hinputs,?_⟩
    rintro ⟨⟩
  | yields serial update queue input hon hget hfactory =>
    have hhead := hqueue hon
    rw [(BoundedQueue.getNowait_some hget).1] at hhead
    cases rest with
    | nil => cases hhead
    | cons u rest =>
      obtain ⟨hfirst,hrest⟩ := List.cons.inj hhead
      subst hfirst
      refine Ensures.of_ok hp ⟨delivered ++ [u],rest,by simpa using hus,?_,fun _ => hrest⟩
      simp only [Option.toList_some,List.map_append,List.map_cons,List.map_nil,hinputs,hfactory]

end Serves

/-- The consumer neither closes its stream nor opens it again. -/
theorem VLLMInputStream.closed_pull (stream : VLLMInputStream P I) :
    (after VLLMInputStream.pull stream).closed = stream.closed := by
  have hcase := VLLMInputStream.pull_case stream
  unfold after
  generalize VLLMInputStream.pull stream = result at hcase ⊢
  cases hcase <;> rfl

/-- The stream of session `s` is its own, and serves the updates of `s`. -/
structure Feeds (s : SessionId) (us : List SessionRevisionUpdate) (yielded : List (ℕ × I))
    (b : VLLMRevisionBridge P I) : Prop where
  listed : ∀ t handle, b.streams.get? t = some handle → handle < b.objects.length
  own : ∀ t handle, b.streams.get? t = some handle → b.streams.get? s = some handle → t = s
  known : ∀ y ∈ yielded, y.1 < b.objects.length
  served : ∀ handle, b.streams.get? s = some handle →
    ∃ stream ∈ b.objects[handle]?, Serves (updatesOf s us) (inputsOf handle yielded) stream

/-- A call on a stream object, or on none. -/
theorem ensures_onStream {α : Type} {handle : ℕ} {x : EStateM BridgeError (VLLMInputStream P I) α}
    {b : VLLMRevisionBridge P I} {post : α → VLLMRevisionBridge P I → Prop}
    {raised : BridgeError → VLLMRevisionBridge P I → Prop} (hnone : raised .noSuchStream b)
    (hsome : ∀ stream, b.objects[handle]? = some stream → Ensures x stream
      (fun a t => post a { b with objects := b.objects.set handle t })
      (fun e t => raised e { b with objects := b.objects.set handle t })) :
    Ensures (VLLMRevisionBridge.onStream handle x) b post raised := by
  unfold Ensures VLLMRevisionBridge.onStream
  cases hget : b.objects[handle]? with
  | none => exact hnone
  | some stream =>
    have hx := hsome stream hget
    unfold Ensures at hx
    cases h : x stream <;> simpa only [h] using hx

namespace Feeds
variable {s : SessionId} {us us' : List SessionRevisionUpdate} {yielded : List (ℕ × I)}
  {b : VLLMRevisionBridge P I}

/-- One stream object changes, and its consumer is given `new`. -/
theorem set (h : Feeds s us yielded b) {handle : ℕ} {stream t : VLLMInputStream P I}
    (hget : b.objects[handle]? = some stream) (new : List I)
    (hother : b.streams.get? s ≠ some handle → updatesOf s us' = updatesOf s us)
    (hself : b.streams.get? s = some handle →
      Serves (updatesOf s us) (inputsOf handle yielded) stream →
      Serves (updatesOf s us') (inputsOf handle yielded ++ new) t) :
    Feeds s us' (yielded ++ new.map (fun input => (handle,input)))
      { b with objects := b.objects.set handle t } where
  listed u handle' hu := by
    rw [List.length_set]
    exact h.listed u handle' hu
  own := h.own
  known y hy := by
    rw [List.length_set]
    rcases List.mem_append.mp hy with hold | hnew
    · exact h.known y hold
    · obtain ⟨input,-,rfl⟩ := List.mem_map.mp hnew
      exact (List.getElem?_eq_some_iff.mp hget).1
  served handle' hs := by
    obtain ⟨stream',hstream',hserves⟩ := h.served handle' hs
    by_cases hsame : handle' = handle
    · subst hsame
      rw [hget] at hstream'
      cases hstream'
      refine ⟨t,List.getElem?_set_self (List.getElem?_eq_some_iff.mp hget).1,?_⟩
      rw [inputsOf_append_self]
      exact hself hs hserves
    · have hne : b.streams.get? s ≠ some handle := by
        intro hs'
        exact hsame (Option.some.inj (hs.symm.trans hs'))
      refine ⟨stream',?_,?_⟩
      · rwa [Option.mem_def,List.getElem?_set_ne (Ne.symm hsame)]
      · rw [hother hne,inputsOf_append_ne hsame]
        exact hserves

/-- A change of one stream object that its consumer does not see. -/
theorem set_unseen (h : Feeds s us yielded b) {handle : ℕ} {stream t : VLLMInputStream P I}
    (hget : b.objects[handle]? = some stream)
    (hother : b.streams.get? s ≠ some handle → updatesOf s us' = updatesOf s us)
    (hself : b.streams.get? s = some handle →
      Serves (updatesOf s us) (inputsOf handle yielded) stream →
      Serves (updatesOf s us') (inputsOf handle yielded) t) :
    Feeds s us' yielded { b with objects := b.objects.set handle t } := by
  have hset : Feeds s us' (yielded ++ ([] : List I).map (fun input => (handle,input)))
      { b with objects := b.objects.set handle t } :=
    h.set hget [] hother (fun hs hserves => by
      rw [List.append_nil]
      exact hself hs hserves)
  rwa [List.map_nil,List.append_nil] at hset

/-- An update that goes to `s` is queued for `s`, every other one goes elsewhere. -/
theorem updateSession (h : Feeds s us yielded b) (u : SessionRevisionUpdate) :
    Ensures (VLLMRevisionBridge.updateSession u) b (fun _ b' => Feeds s (us ++ [u]) yielded b')
      (fun _ b' => Feeds s us yielded b') := by
  refine ensures_bind.mpr (Ensures.of_ok (get_apply b) ?_)
  cases hu : b.streams.get? u.sessionId with
  | none => exact Ensures.of_error (throw_apply _ b) h
  | some handle =>
    refine ensures_bind.mpr (ensures_onStream h (fun stream hget => ?_))
    by_cases hs : b.streams.get? s = some handle
    · have hsession : u.sessionId = s := h.own u.sessionId handle hu hs
      obtain ⟨stream',hstream',hserves⟩ := h.served handle hs
      rw [hget] at hstream'
      cases hstream'
      refine (hserves.publish u).mono (fun put t ht => Ensures.of_ok (pure_apply _ _) ?_)
        (fun _ t ht => ?_)
      · exact h.set_unseen hget (fun hne => absurd hs hne)
          (fun _ _ => by rwa [updatesOf_concat_self hsession])
      · exact h.set_unseen hget (fun _ => rfl) (fun _ _ => ht)
    · have hne : u.sessionId ≠ s := by
        rintro rfl
        exact hs hu
      unfold Ensures
      cases VLLMInputStream.publishNowait (.revision u) stream with
      | ok put t =>
        exact h.set_unseen hget (fun _ => updatesOf_concat_ne hne) (fun hs' _ => absurd hs' hs)
      | error e t => exact h.set_unseen hget (fun _ => rfl) (fun hs' _ => absurd hs' hs)

/-- What is done to a stream other than that of `s`. -/
theorem onOther (h : Feeds s us yielded b) {α : Type} {handle : ℕ}
    (x : EStateM BridgeError (VLLMInputStream P I) α) (hne : b.streams.get? s ≠ some handle) :
    Ensures (VLLMRevisionBridge.onStream handle x) b (fun _ => Feeds s us yielded)
      (fun _ => Feeds s us yielded) := by
  refine ensures_onStream h (fun stream hget => ?_)
  unfold Ensures
  cases x stream with
  | ok a t => exact h.set_unseen hget (fun _ => rfl) (fun hs _ => absurd hs hne)
  | error e t => exact h.set_unseen hget (fun _ => rfl) (fun hs _ => absurd hs hne)

/-- A new stream has nothing queued; it may be that of `s` if nothing was taken for `s`. -/
theorem openSession (h : Feeds s us yielded b) {t : SessionId} (hnew : t = s → updatesOf s us = [])
    (samplingParams : P) (maxPendingUpdates : ℤ) (inputFactory : InputFactory P I) :
    Ensures (VLLMRevisionBridge.openSession t samplingParams maxPendingUpdates inputFactory) b
      (fun handle b' => Feeds s us yielded b' ∧ b'.streams.get? t = some handle)
      (fun _ b' => Feeds s us yielded b') := by
  rcases VLLMRevisionBridge.openSession_cases t samplingParams maxPendingUpdates inputFactory b
    with ⟨e,hraise⟩ | ⟨new,hinit,-,hok⟩
  · exact Ensures.of_error hraise h
  have hentry : ∀ u, (b.streams.set t b.objects.length).get? u =
      if u = t then some b.objects.length else b.streams.get? u := fun u => Dict.get?_set _ _ _ _
  have hlisted : ∀ {u}, b.streams.get? u ≠ some b.objects.length :=
    fun hu => lt_irrefl _ (h.listed _ _ hu)
  refine Ensures.of_ok hok ⟨⟨fun u handle hu => ?_,fun u handle hu hs => ?_,fun y hy => ?_,
    fun handle hs => ?_⟩,Dict.get?_set_self _ _ _⟩
  · rw [List.length_append]
    rw [hentry] at hu
    split at hu
    · cases hu
      exact Nat.lt_succ_self _
    · exact (h.listed u handle hu).trans (Nat.lt_succ_self _)
  · rw [hentry] at hu hs
    split at hu <;> split at hs
    · next hut hst => exact hut.trans hst.symm
    · cases hu
      exact absurd hs hlisted
    · cases hs
      exact absurd hu hlisted
    · exact h.own u handle hu hs
  · rw [List.length_append]
    exact (h.known y hy).trans (Nat.lt_succ_self _)
  · rw [hentry] at hs
    split at hs
    · next hst =>
      cases hs
      have hnone : inputsOf b.objects.length yielded = [] := by
        rw [inputsOf,List.filter_eq_nil_iff.mpr (fun y hy => ?_),List.map_nil]
        simpa using (h.known y hy).ne
      rw [hnew hst.symm,hnone]
      refine ⟨new,List.getElem?_concat_length,[],[],rfl,rfl,fun _ => ?_⟩
      rw [(VLLMInputStream.init_ok hinit).2]
      rfl
    · obtain ⟨stream',hstream',hserves⟩ := h.served handle hs
      refine ⟨stream',?_,hserves⟩
      rwa [Option.mem_def,List.getElem?_append_left (h.listed s handle hs)]

/-- A session that is closed has no stream. -/
theorem erase (h : Feeds s us yielded b) (t : SessionId) :
    Feeds s us yielded { b with streams := b.streams.erase t } := by
  have hold : ∀ u handle, (b.streams.erase t).get? u = some handle → b.streams.get? u = some handle := by
    intro u handle hu
    rw [Dict.get?_erase] at hu
    split at hu
    · cases hu
    · exact hu
  exact ⟨fun u handle hu => h.listed u handle (hold u handle hu),
    fun u handle hu hs => h.own u handle (hold u handle hu) (hold s handle hs),
    h.known,fun handle hs => h.served handle (hold s handle hs)⟩

theorem closeStream (h : Feeds s us yielded b) (handle : ℕ) :
    Ensures (VLLMRevisionBridge.onStream handle VLLMInputStream.closeNowait) b
      (fun _ => Feeds s us yielded) (fun _ => Feeds s us yielded) := by
  refine ensures_onStream h (fun stream hget => ?_)
  have hself : ∀ t, after VLLMInputStream.closeNowait stream = t →
      Feeds s us yielded { b with objects := b.objects.set handle t } := by
    rintro t rfl
    exact h.set_unseen hget (fun _ => rfl) (fun _ hserves => hserves.close)
  cases hx : VLLMInputStream.closeNowait stream with
  | ok a t => exact Ensures.of_ok hx (hself t (after_ok hx))
  | error e t => exact Ensures.of_error hx (hself t (after_error hx))

end Feeds

/-- What the consumer is given by a call. -/
def yields (call : BridgeCall P I) (b : VLLMRevisionBridge P I) : List (ℕ × I) :=
  match call with
  | .pull handle =>
    match VLLMRevisionBridge.onStream handle VLLMInputStream.pull b with
    | .ok (some (_,input)) _ => [(handle,input)]
    | _ => []
  | _ => []

/-- A pull on a stream object gives its consumer at most one input, the one that is next. -/
theorem pull_yields {handle : ℕ} {b : VLLMRevisionBridge P I} {stream : VLLMInputStream P I}
    (hget : b.objects[handle]? = some stream) :
    ∃ new : List I, yields (.pull handle) b = new.map (fun input => (handle,input)) ∧
      after (VLLMRevisionBridge.exec (.pull handle)) b =
        { b with objects := b.objects.set handle (after VLLMInputStream.pull stream) } ∧
      ∀ {us : List SessionRevisionUpdate} {inputs : List I}, Serves us inputs stream →
        Serves us (inputs ++ new) (after VLLMInputStream.pull stream) := by
  have hafter : after (VLLMRevisionBridge.exec (.pull handle)) b =
      after (VLLMRevisionBridge.onStream handle VLLMInputStream.pull) b := after_discard
  rw [hafter,VLLMRevisionBridge.after_onStream hget]
  cases hx : VLLMInputStream.pull stream with
  | ok got t =>
    refine ⟨got.toList.map Prod.snd,?_,rfl,fun hserves => ?_⟩
    · cases got <;> simp [yields,VLLMRevisionBridge.onStream,hget,hx]
    · rw [after_ok hx]
      exact hserves.pull.ok hx
  | error e t =>
    refine ⟨[],?_,rfl,fun hserves => ?_⟩
    · simp only [yields,VLLMRevisionBridge.onStream,hget,hx,List.map_nil]
    · rw [after_error hx,List.append_nil]
      exact hserves.pull.error hx

theorem pull_none {handle : ℕ} {b : VLLMRevisionBridge P I} (hget : b.objects[handle]? = none) :
    yields (.pull handle) b = [] ∧ after (VLLMRevisionBridge.exec (.pull handle)) b = b := by
  have hraise := VLLMRevisionBridge.onStream_none hget VLLMInputStream.pull
  exact ⟨by simp only [yields,hraise],after_error (bind_error hraise)⟩

/-- A call leaves the updates of `s` to the runtime: nobody else publishes for it, and its
stream is not opened once more after updates of `s` were taken. -/
def LeavesTo (s : SessionId) (us : List SessionRevisionUpdate) (b : VLLMRevisionBridge P I) :
    BridgeCall P I → Prop
  | .openSession sessionId _ _ _ => sessionId = s → updatesOf s us = []
  | .openBranch update _ _ => update.branchId ≠ s
  | .updateSession update => update.sessionId ≠ s
  | .publishNowait handle _ => b.streams.get? s ≠ some handle
  | .closeNowait _ | .closeSessionNowait _ | .pull _ => True

theorem Feeds.exec {s : SessionId} {us : List SessionRevisionUpdate} {yielded : List (ℕ × I)}
    {b : VLLMRevisionBridge P I} (h : Feeds s us yielded b) {call : BridgeCall P I}
    (hleaves : LeavesTo s us b call) :
    Feeds s us (yielded ++ yields call b) (after (VLLMRevisionBridge.exec call) b) := by
  have hquiet : yields call b = [] → Ensures (VLLMRevisionBridge.exec call) b
      (fun _ => Feeds s us yielded) (fun _ => Feeds s us yielded) →
      Feeds s us (yielded ++ yields call b) (after (VLLMRevisionBridge.exec call) b) := by
    intro hnone hens
    rw [hnone,List.append_nil]
    exact hens.after
  cases call with
  | openSession sessionId samplingParams maxPendingUpdates inputFactory =>
    refine hquiet rfl (ensures_bind.mpr ?_)
    exact (h.openSession hleaves _ _ _).mono (fun _ _ hb => Ensures.of_ok (pure_apply _ _) hb.1)
      (fun _ _ hb => hb)
  | openBranch update samplingParams inputFactory =>
    refine hquiet rfl (ensures_bind.mpr (ensures_bind.mpr (Ensures.of_ok (get_apply b) ?_)))
    split
    · exact Ensures.of_error (throw_apply _ b) h
    refine ensures_bind.mpr ((h.openSession (fun hs => absurd hs hleaves) _ _ _).mono
      (fun handle b' hb => ?_) (fun _ _ hb => hb))
    have hother : b'.streams.get? s ≠ some handle :=
      fun hs => hleaves (hb.1.own update.branchId handle hb.2 hs)
    exact ensures_bind.mpr ((hb.1.onOther _ hother).mono
      (fun _ _ hb' => Ensures.of_ok (pure_apply _ _) (Ensures.of_ok (pure_apply _ _) hb'))
      (fun _ _ hb' => hb'))
  | updateSession update =>
    refine hquiet rfl ((h.updateSession update).mono (fun _ b' hb => ?_) (fun _ _ hb => hb))
    refine ⟨hb.listed,hb.own,hb.known,fun handle hs => ?_⟩
    have hserved := hb.served handle hs
    rwa [updatesOf_concat_ne hleaves] at hserved
  | publishNowait handle update =>
    exact hquiet rfl (ensures_bind.mpr ((h.onOther _ hleaves).mono
      (fun _ _ hb => Ensures.of_ok (pure_apply _ _) hb) (fun _ _ hb => hb)))
  | closeNowait handle =>
    exact hquiet rfl (ensures_bind.mpr ((h.closeStream handle).mono
      (fun _ _ hb => Ensures.of_ok (pure_apply _ _) hb) (fun _ _ hb => hb)))
  | closeSessionNowait sessionId =>
    refine hquiet rfl (ensures_bind.mpr (Ensures.of_ok (get_apply b) ?_))
    cases hget : b.streams.get? sessionId with
    | none => exact Ensures.of_error (throw_apply _ b) h
    | some handle =>
      refine ensures_bind.mpr (Ensures.of_ok (modify_apply _ b) ?_)
      exact ensures_bind.mpr (((h.erase sessionId).closeStream handle).mono
        (fun _ _ hb => Ensures.of_ok (pure_apply _ _) hb) (fun _ _ hb => hb))
  | pull handle =>
    cases hget : b.objects[handle]? with
    | none =>
      obtain ⟨hnone,hsame⟩ := pull_none hget
      rwa [hnone,hsame,List.append_nil]
    | some stream =>
      obtain ⟨new,hnew,hafter,hserves⟩ := pull_yields hget
      rw [hnew,hafter]
      exact h.set hget new (fun _ => rfl) (fun _ hs => hserves hs)

/-- The session whose entry in the table a call may change. -/
def rebinds : BridgeCall P I → Option SessionId
  | .openSession sessionId _ _ _ => some sessionId
  | .openBranch update _ _ => some update.branchId
  | .closeSessionNowait sessionId => some sessionId
  | _ => none

/-- What is kept by the parts of a call is kept by the call. -/
theorem VLLMRevisionBridge.keeps_exec {J : VLLMRevisionBridge P I → Prop} {call : BridgeCall P I}
    (hopen : ∀ sessionId samplingParams maxPendingUpdates inputFactory,
      rebinds call = some sessionId →
        Keeps J (openSession sessionId samplingParams maxPendingUpdates inputFactory))
    (herase : ∀ sessionId, rebinds call = some sessionId → ∀ b, J b →
      J { b with streams := b.streams.erase sessionId })
    (hpublish : ∀ handle update, Keeps J (onStream handle (VLLMInputStream.publishNowait update)))
    (hclose : ∀ handle, Keeps J (onStream handle VLLMInputStream.closeNowait))
    (hpull : ∀ handle, call = .pull handle → Keeps J (onStream handle VLLMInputStream.pull)) :
    Keeps J (exec call) := by
  cases call with
  | openSession sessionId samplingParams maxPendingUpdates inputFactory =>
    exact keeps_bind (hopen _ _ _ _ rfl) (fun _ => keeps_pure _)
  | openBranch update samplingParams inputFactory =>
    refine keeps_bind (keeps_bind keeps_get (fun _ => ?_)) (fun _ => keeps_pure _)
    refine keeps_ite (fun _ => keeps_throw _) (fun _ => ?_)
    refine keeps_bind (hopen _ _ _ _ rfl) (fun handle => ?_)
    exact keeps_bind (hpublish handle _) (fun _ => keeps_pure _)
  | updateSession update =>
    refine keeps_bind keeps_get (fun t => ?_)
    cases t.streams.get? update.sessionId with
    | none => exact keeps_throw _
    | some handle => exact keeps_bind (hpublish handle _) (fun _ => keeps_pure _)
  | publishNowait handle update => exact keeps_bind (hpublish handle update) (fun _ => keeps_pure _)
  | closeNowait handle => exact keeps_bind (hclose handle) (fun _ => keeps_pure _)
  | closeSessionNowait sessionId =>
    refine keeps_bind keeps_get (fun t => ?_)
    cases t.streams.get? sessionId with
    | none => exact keeps_throw _
    | some handle =>
      refine keeps_bind (keeps_modify (herase sessionId rfl)) (fun _ => ?_)
      exact keeps_bind (hclose handle) (fun _ => keeps_pure _)
  | pull handle => exact keeps_bind (hpull handle rfl) (fun _ => keeps_pure _)

/-- The stream is in the table no more and closed; it still serves the updates that it took. -/
structure Detached (handle : ℕ) (us : List SessionRevisionUpdate) (yielded : List (ℕ × I))
    (b : VLLMRevisionBridge P I) : Prop where
  unlisted : ∀ t, b.streams.get? t ≠ some handle
  served : ∃ stream ∈ b.objects[handle]?, stream.closed = true ∧
    Serves us (inputsOf handle yielded) stream

namespace Detached
variable {handle : ℕ} {us : List SessionRevisionUpdate} {yielded : List (ℕ × I)}
  {b : VLLMRevisionBridge P I}

/-- Only the consumer changes a closed stream. -/
theorem keeps_onStream {α : Type} (other : ℕ) {x : EStateM BridgeError (VLLMInputStream P I) α}
    (hx : ∀ stream, stream.closed = true → after x stream = stream) :
    Keeps (Detached handle us yielded) (VLLMRevisionBridge.onStream other x) := by
  intro b h
  cases hget : b.objects[other]? with
  | none => rwa [after_error (VLLMRevisionBridge.onStream_none hget x)]
  | some t =>
    rw [VLLMRevisionBridge.after_onStream hget]
    obtain ⟨stream,hstream,hclosed,hserves⟩ := h.served
    refine ⟨h.unlisted,stream,?_,hclosed,hserves⟩
    by_cases hsame : other = handle
    · subst hsame
      rw [hget] at hstream
      cases hstream
      rw [hx _ hclosed,Option.mem_def]
      exact List.getElem?_set_self (List.getElem?_eq_some_iff.mp hget).1
    · rwa [Option.mem_def,List.getElem?_set_ne hsame]

theorem keeps_publishNowait (other : ℕ) (update : VLLMStreamUpdate) :
    Keeps (Detached handle us yielded : VLLMRevisionBridge P I → Prop)
      (VLLMRevisionBridge.onStream other (VLLMInputStream.publishNowait update)) :=
  keeps_onStream other (fun _ hclosed =>
    after_error (VLLMInputStream.publishNowait_closed update hclosed))

theorem keeps_closeNowait (other : ℕ) :
    Keeps (Detached handle us yielded : VLLMRevisionBridge P I → Prop)
      (VLLMRevisionBridge.onStream other VLLMInputStream.closeNowait) :=
  keeps_onStream other (fun _ hclosed => after_ok (VLLMInputStream.closeNowait_closed hclosed))

/-- A new session gets a new stream. -/
theorem keeps_openSession (sessionId : SessionId) (samplingParams : P) (maxPendingUpdates : ℤ)
    (inputFactory : InputFactory P I) : Keeps (Detached handle us yielded)
      (VLLMRevisionBridge.openSession sessionId samplingParams maxPendingUpdates inputFactory) := by
  intro b h
  rcases VLLMRevisionBridge.openSession_cases sessionId samplingParams maxPendingUpdates
    inputFactory b with ⟨e,hraise⟩ | ⟨new,-,-,hok⟩
  · rwa [after_error hraise]
  · rw [after_ok hok]
    obtain ⟨stream,hstream,hserved⟩ := h.served
    obtain ⟨hlt,-⟩ := List.getElem?_eq_some_iff.mp hstream
    refine ⟨fun t ht => ?_,stream,?_,hserved⟩
    · by_cases hts : t = sessionId
      · rw [hts,Dict.get?_set_self,Option.some.injEq] at ht
        omega
      · exact h.unlisted t (Dict.get?_set_ne _ _ hts ▸ ht)
    · rwa [Option.mem_def,List.getElem?_append_left hlt]

theorem erase (h : Detached handle us yielded b) (t : SessionId) :
    Detached handle us yielded { b with streams := b.streams.erase t } := by
  refine ⟨fun u hu => ?_,h.served⟩
  rw [Dict.get?_erase] at hu
  split at hu
  · cases hu
  · exact h.unlisted u hu

/-- Every call but a pull leaves a closed stream alone. -/
theorem keeps_exec {call : BridgeCall P I} (hpull : ∀ other, call ≠ .pull other) :
    Keeps (Detached handle us yielded) (VLLMRevisionBridge.exec call) :=
  VLLMRevisionBridge.keeps_exec (fun _ _ _ _ _ => keeps_openSession _ _ _ _)
    (fun t _ _ hb => hb.erase t) keeps_publishNowait keeps_closeNowait
    (fun other h => absurd h (hpull other))

theorem exec (h : Detached handle us yielded b) (call : BridgeCall P I) :
    Detached handle us (yielded ++ yields call b) (after (VLLMRevisionBridge.exec call) b) := by
  by_cases hpull : ∃ other, call = .pull other
  · obtain ⟨other,rfl⟩ := hpull
    cases hget : b.objects[other]? with
    | none =>
      obtain ⟨hnone,hsame⟩ := pull_none hget
      rwa [hnone,hsame,List.append_nil]
    | some t =>
      obtain ⟨new,hnew,hafter,hserves⟩ := pull_yields hget
      rw [hnew,hafter]
      obtain ⟨stream,hstream,hclosed,hserved⟩ := h.served
      by_cases hsame : handle = other
      · subst hsame
        rw [hget] at hstream
        cases hstream
        refine ⟨h.unlisted,_,List.getElem?_set_self (List.getElem?_eq_some_iff.mp hget).1,?_,?_⟩
        · rwa [VLLMInputStream.closed_pull]
        · rw [inputsOf_append_self]
          exact hserves hserved
      · refine ⟨h.unlisted,stream,?_,hclosed,?_⟩
        · rwa [Option.mem_def,List.getElem?_set_ne (Ne.symm hsame)]
        · rwa [inputsOf_append_ne hsame]
  · have hother : ∀ other, call ≠ .pull other := fun other hcall => hpull ⟨other,hcall⟩
    have hnone : yields call b = [] := by
      cases call with
      | pull other => exact absurd rfl (hother other)
      | _ => rfl
    rw [hnone,List.append_nil]
    exact keeps_exec hother b h

end Detached

namespace VLLMRevisionBridge

theorem keeps_streams_onStream {α : Type} {J : Dict SessionId ℕ → Prop} (handle : ℕ)
    (x : EStateM BridgeError (VLLMInputStream P I) α) :
    Keeps (fun b : VLLMRevisionBridge P I => J b.streams) (onStream handle x) := by
  intro b h
  cases hget : b.objects[handle]? with
  | none => rwa [after_error (onStream_none hget x)]
  | some stream => rwa [after_onStream hget]

theorem keeps_get?_openSession {s sessionId : SessionId} {entry : Option ℕ} (hne : s ≠ sessionId)
    (samplingParams : P) (maxPendingUpdates : ℤ) (inputFactory : InputFactory P I) :
    Keeps (fun b : VLLMRevisionBridge P I => b.streams.get? s = entry)
      (openSession sessionId samplingParams maxPendingUpdates inputFactory) := by
  intro b h
  rcases openSession_cases sessionId samplingParams maxPendingUpdates inputFactory b with
    ⟨e,hraise⟩ | ⟨stream,-,-,hok⟩
  · rwa [after_error hraise]
  · rw [after_ok hok]
    exact (Dict.get?_set_ne _ _ hne).trans h

theorem keeps_get?_exec {s : SessionId} {entry : Option ℕ} {call : BridgeCall P I}
    (hne : rebinds call ≠ some s) :
    Keeps (fun b : VLLMRevisionBridge P I => b.streams.get? s = entry) (exec call) := by
  have hon : ∀ {α : Type} (handle : ℕ) (x : EStateM BridgeError (VLLMInputStream P I) α),
      Keeps (fun b : VLLMRevisionBridge P I => b.streams.get? s = entry) (onStream handle x) :=
    fun handle x => keeps_streams_onStream (J := fun d => d.get? s = entry) handle x
  have hs : ∀ {sessionId}, rebinds call = some sessionId → s ≠ sessionId :=
    fun hbind hs => hne (hbind.trans (congrArg some hs.symm))
  refine keeps_exec (fun _ _ _ _ hbind => keeps_get?_openSession (hs hbind) _ _ _)
    (fun sessionId hbind b hb => ?_) (fun handle _ => hon handle _) (fun handle => hon handle _)
    (fun handle _ => hon handle _)
  exact (Dict.get?_erase _ _ _).trans ((if_neg (hs hbind)).trans hb)

end VLLMRevisionBridge

/-- The stream is that of session `s`, or it was and is closed: then it serves all updates of
`s` that were taken, or was closed before there were any. -/
def Follows (s : SessionId) (handle : ℕ) (us : List SessionRevisionUpdate)
    (yielded : List (ℕ × I)) (b : VLLMRevisionBridge P I) : Prop :=
  b.streams.get? s = some handle ∨
    ∃ served, Detached handle served yielded b ∧
      (served = [] ∨ served = updatesOf s us ∧ b.streams.get? s = none)

section Following
variable {s : SessionId} {handle : ℕ} {us : List SessionRevisionUpdate} {yielded : List (ℕ × I)}
  {b : VLLMRevisionBridge P I}

theorem VLLMInputStream.closed_closeNowait (stream : VLLMInputStream P I) :
    (after VLLMInputStream.closeNowait stream).closed = true := by
  cases hclosed : stream.closed with
  | true => rwa [after_ok (VLLMInputStream.closeNowait_closed hclosed)]
  | false =>
    cases hfull : stream.queue.full with
    | true => rw [after_error (VLLMInputStream.closeNowait_full hclosed hfull)]
    | false => rw [after_ok (VLLMInputStream.closeNowait_room hclosed hfull)]

/-- Closing the session leaves its stream to its consumer. -/
theorem Feeds.detach (h : Feeds s us yielded b) (hs : b.streams.get? s = some handle) :
    let next := after (VLLMRevisionBridge.exec (.closeSessionNowait s)) b
    Detached handle (updatesOf s us) yielded next ∧ next.streams.get? s = none := by
  obtain ⟨stream,hstream,hserves⟩ := h.served handle hs
  have hrun : VLLMRevisionBridge.exec (.closeSessionNowait s) b =
      (do let _ ← VLLMRevisionBridge.onStream handle VLLMInputStream.closeNowait)
        { b with streams := b.streams.erase s } := by
    simp only [VLLMRevisionBridge.exec,VLLMRevisionBridge.closeSessionNowait,bind_ok (get_apply b),
      hs,bind_ok (modify_apply _ b)]
  have hexec : after (VLLMRevisionBridge.exec (.closeSessionNowait s)) b =
      ⟨b.streams.erase s,b.objects.set handle (after VLLMInputStream.closeNowait stream)⟩ := by
    rw [after,hrun]
    exact after_discard.trans (VLLMRevisionBridge.after_onStream
      (b := { b with streams := b.streams.erase s }) hstream _)
  rw [hexec]
  have herased : ∀ t, (b.streams.erase s).get? t = if t = s then none else b.streams.get? t :=
    fun t => Dict.get?_erase _ _ _
  refine ⟨⟨fun t ht => ?_,_,List.getElem?_set_self (h.listed s handle hs),
    VLLMInputStream.closed_closeNowait stream,hserves.close⟩,(herased s).trans (if_pos rfl)⟩
  rw [herased] at ht
  split at ht
  · cases ht
  · next hne => exact hne (h.own t handle ht hs)

theorem Follows.exec (h : Follows s handle us yielded b) (hfeeds : Feeds s us yielded b)
    {call : BridgeCall P I} (hleaves : LeavesTo s us b call) :
    Follows s handle us (yielded ++ yields call b) (after (VLLMRevisionBridge.exec call) b) := by
  rcases h with hs | ⟨served,hdetached,hserved⟩
  · by_cases hbind : rebinds call = some s
    · cases call with
      | openSession sessionId samplingParams maxPendingUpdates inputFactory =>
        cases hbind
        left
        -- `open_session` raises: the session has its stream
        rcases VLLMRevisionBridge.openSession_cases s samplingParams maxPendingUpdates
          inputFactory b with ⟨e,hraise⟩ | ⟨stream,-,hnone,-⟩
        · rwa [VLLMRevisionBridge.exec,after_error (bind_error hraise)]
        · rw [hs] at hnone
          cases hnone
      | openBranch update samplingParams inputFactory => exact absurd (Option.some.inj hbind) hleaves
      | closeSessionNowait sessionId =>
        cases hbind
        obtain ⟨hdetached,hnone⟩ := hfeeds.detach hs
        exact .inr ⟨_,by rwa [show yields (.closeSessionNowait s) b = [] from rfl,List.append_nil],
          .inr ⟨rfl,hnone⟩⟩
      | _ => cases hbind
    · exact .inl (VLLMRevisionBridge.keeps_get?_exec hbind b hs)
  · refine .inr ⟨served,hdetached.exec call,?_⟩
    rcases hserved with hempty | ⟨hall,hnone⟩
    · exact .inl hempty
    by_cases hbind : rebinds call = some s
    · cases call with
      | openSession sessionId samplingParams maxPendingUpdates inputFactory =>
        exact .inl (hall.trans (hleaves (Option.some.inj hbind)))
      | openBranch update samplingParams inputFactory => exact absurd (Option.some.inj hbind) hleaves
      | closeSessionNowait sessionId =>
        cases hbind
        have hraise : VLLMRevisionBridge.exec (.closeSessionNowait s) b = .error (.keyError s) b := by
          simp only [VLLMRevisionBridge.exec,VLLMRevisionBridge.closeSessionNowait,
            bind_ok (get_apply b),hnone,throw_apply]
        exact .inr ⟨hall,by rwa [after_error hraise]⟩
      | _ => cases hbind
    · exact .inr ⟨hall,VLLMRevisionBridge.keeps_get?_exec hbind b hnone⟩

/-- The bridge takes no update of a session that it does not have. -/
theorem Follows.updateSession (h : Follows s handle us yielded b) (u : SessionRevisionUpdate) :
    Ensures (VLLMRevisionBridge.updateSession u) b (fun _ b' => Follows s handle (us ++ [u]) yielded b')
      (fun _ b' => Follows s handle us yielded b') := by
  have hexec : VLLMRevisionBridge.exec (.updateSession u) =
      VLLMRevisionBridge.updateSession (P := P) (I := I) u := rfl
  have hentry := keeps_iff.mp
    (@VLLMRevisionBridge.keeps_get?_exec P I s _ (.updateSession u) nofun) b rfl
  rw [hexec] at hentry
  rcases h with hs | ⟨served,hdetached,hserved⟩
  · exact hentry.mono (fun _ _ hb => .inl (hb.trans hs)) (fun _ _ hb => .inl (hb.trans hs))
  have hkept := keeps_iff.mp
    (@Detached.keeps_exec P I handle served yielded (.updateSession u) nofun) b hdetached
  rw [hexec] at hkept
  cases hx : VLLMRevisionBridge.updateSession u b with
  | ok a b' =>
    refine Ensures.of_ok hx (.inr ⟨served,hkept.ok hx,hserved.imp_right ?_⟩)
    rintro ⟨hall,hnone⟩
    have hne : u.sessionId ≠ s := by
      rintro rfl
      simp only [VLLMRevisionBridge.updateSession,bind_ok (get_apply b),hnone,throw_apply] at hx
      cases hx
    rw [updatesOf_concat_ne hne]
    exact ⟨hall,(hentry.ok hx).trans hnone⟩
  | error e b' =>
    refine Ensures.of_error hx (.inr ⟨served,hkept.error hx,hserved.imp_right ?_⟩)
    exact And.imp_right (fun hnone => (hentry.error hx).trans hnone)

end Following

end CueBee.Bridge
