import CueBee.Bridge.VLLMRevisionBridge

/-! # Closing an input stream

`close_nowait` sets the flag before it puts the terminator, and `close_session_nowait` takes
the session out of the table before that. Both are safe exactly when the queue has room.
-/
namespace CueBee.Bridge
open Cache CueBee.Runtime Asyncio Raising PyStr

variable {P I : Type}

namespace VLLMInputStream

/-- The consumer goes round its loop `n` times. -/
def drain : ℕ → VLLMInputStream P I → VLLMInputStream P I
  | 0, s => s
  | n + 1, s => drain n (after pull s)

/-- The terminator is in the queue or was taken. -/
def Terminated (s : VLLMInputStream P I) : Prop :=
  .terminator ∈ s.queue.items ∨ s.consumer = .returned

/-- A closed stream has its terminator, and the loop ends once what is queued is drained. -/
def EndsWhenClosed (s : VLLMInputStream P I) : Prop :=
  s.closed = true → s.Terminated ∧ (drain s.queue.items.length s).consumer ≠ .iterating

theorem drain_over {s : VLLMInputStream P I} (h : s.consumer ≠ .iterating) (n : ℕ) :
    drain n s = s := by
  induction n with
  | zero => rfl
  | succ n ih =>
    have hpull : after pull s = s := by
      have hcase := pull_case s
      cases hx : pull s with
      | ok a t =>
        rw [hx] at hcase
        cases hcase with
        | idle => exact after_ok hx
        | waits => exact after_ok hx
        | ends queue hon => exact absurd hon h
        | yields serial update queue input hon => exact absurd hon h
      | error e t =>
        rw [hx] at hcase
        cases hcase with
        | fails serial update queue hon => exact absurd hon h
    rw [drain,hpull,ih]

/-- A loop that finds the terminator among the next `n` items ends within `n` rounds. -/
theorem drain_ends {n : ℕ} {s : VLLMInputStream P I} (hmem : .terminator ∈ s.queue.items)
    (hlength : s.queue.items.length ≤ n) : (drain n s).consumer ≠ .iterating := by
  induction n generalizing s with
  | zero =>
    rw [List.length_eq_zero_iff.mp (Nat.le_zero.mp hlength)] at hmem
    cases hmem
  | succ n ih =>
    have hcase := pull_case s
    cases hx : pull s with
    | ok a t =>
      rw [hx] at hcase
      rw [drain,after_ok hx]
      cases hcase with
      | idle hidle =>
        rw [drain_over hidle]
        exact hidle
      | waits hon hempty =>
        rw [hempty] at hmem
        cases hmem
      | ends queue hon hget =>
        rw [drain_over (by simp)]
        simp
      | yields serial update queue input hon hget hfactory =>
        obtain ⟨hitems,-⟩ := BoundedQueue.getNowait_some hget
        rw [hitems] at hmem hlength
        have hrest := (List.mem_cons.mp hmem).resolve_left (by simp)
        exact ih hrest (Nat.le_of_succ_le_succ hlength)
    | error e t =>
      rw [hx] at hcase
      rw [drain,after_error hx]
      cases hcase with
      | fails serial update queue hon hget hfactory =>
        rw [drain_over (by simp)]
        simp

theorem EndsWhenClosed.of_terminated {s : VLLMInputStream P I}
    (h : s.closed = true → s.Terminated) : s.EndsWhenClosed := by
  refine fun hclosed => ⟨h hclosed,?_⟩
  rcases h hclosed with hmem | hreturned
  · exact drain_ends hmem le_rfl
  · rw [drain_over (by simp [hreturned])]
    simp [hreturned]

theorem keeps_open_putNowait (item : QueueItem) :
    Keeps (fun s : VLLMInputStream P I => s.closed = false) (putNowait item) := by
  intro s hs
  cases hfull : s.queue.full with
  | true => rwa [after_error (putNowait_full item hfull)]
  | false => rwa [after_ok (putNowait_room item hfull)]

theorem keeps_open_publishNowait (update : VLLMStreamUpdate) :
    Keeps (fun s : VLLMInputStream P I => s.closed = false) (publishNowait update) := by
  refine keeps_bind keeps_get (fun t => keeps_ite (fun _ => keeps_throw _) (fun _ => ?_))
  exact keeps_bind (fun s hs => hs) keeps_open_putNowait

theorem keeps_publishNowait (update : VLLMStreamUpdate) :
    Keeps (fun s : VLLMInputStream P I => s.closed = true → s.Terminated) (publishNowait update) := by
  intro s hs
  cases hclosed : s.closed with
  | false =>
    have hopen := keeps_open_publishNowait update s hclosed
    intro hnow
    rw [hopen] at hnow
    cases hnow
  | true =>
    rwa [after_error (publishNowait_closed update hclosed)]

theorem keeps_pull :
    Keeps (fun s : VLLMInputStream P I => s.closed = true → s.Terminated) pull := by
  intro s hs
  have hcase := pull_case s
  cases hx : pull s with
  | ok a t =>
    rw [hx] at hcase
    rw [after_ok hx]
    cases hcase with
    | idle => exact hs
    | waits => exact hs
    | ends => exact fun _ => .inr rfl
    | yields serial update queue input hon hget =>
      intro hclosed
      have hmem := (hs hclosed).resolve_right (by simp [hon])
      rw [(BoundedQueue.getNowait_some hget).1] at hmem
      exact .inl ((List.mem_cons.mp hmem).resolve_left (by simp))
  | error e t =>
    rw [hx] at hcase
    rw [after_error hx]
    cases hcase with
    | fails serial update queue hon hget =>
      intro hclosed
      have hmem := (hs hclosed).resolve_right (by simp [hon])
      rw [(BoundedQueue.getNowait_some hget).1] at hmem
      exact .inl ((List.mem_cons.mp hmem).resolve_left (by simp))

/-- A close that has room returns, and the terminator is there. -/
theorem closeNowait_settles {s : VLLMInputStream P I} (hs : s.closed = true → s.Terminated)
    (hroom : s.closed = false → s.queue.full = false) :
    ∃ put t, closeNowait s = .ok put t ∧ (t.closed = true → t.Terminated) := by
  cases hclosed : s.closed with
  | true => exact ⟨none,s,closeNowait_closed hclosed,hs⟩
  | false =>
    exact ⟨_,_,closeNowait_room hclosed (hroom hclosed),fun _ => .inl (by simp)⟩

end VLLMInputStream

/-- A call of a client of the bridge; `handle` is a stream object it holds. -/
inductive BridgeCall (P I : Type)
  | openSession (sessionId : SessionId) (samplingParams : P) (maxPendingUpdates : ℤ)
      (inputFactory : InputFactory P I)
  | openBranch (update : BranchForkUpdate) (samplingParams : P) (inputFactory : InputFactory P I)
  | updateSession (update : SessionRevisionUpdate)
  | publishNowait (handle : ℕ) (update : VLLMStreamUpdate)
  | closeNowait (handle : ℕ)
  | closeSessionNowait (sessionId : SessionId)
  | pull (handle : ℕ)

namespace VLLMRevisionBridge

/-- The call with its result dropped. -/
def exec : BridgeCall P I → EStateM BridgeError (VLLMRevisionBridge P I) Unit
  | .openSession sessionId samplingParams maxPendingUpdates inputFactory => do
    let _ ← openSession sessionId samplingParams maxPendingUpdates inputFactory
  | .openBranch update samplingParams inputFactory => do
    let _ ← openBranch update samplingParams inputFactory
  | .updateSession update => updateSession update
  | .publishNowait handle update => do
    let _ ← onStream handle (VLLMInputStream.publishNowait update)
  | .closeNowait handle => do
    let _ ← onStream handle VLLMInputStream.closeNowait
  | .closeSessionNowait sessionId => closeSessionNowait sessionId
  | .pull handle => do
    let _ ← onStream handle VLLMInputStream.pull

/-- The stream that a call is to close. -/
def closes (b : VLLMRevisionBridge P I) : BridgeCall P I → Option ℕ
  | .closeNowait handle => some handle
  | .closeSessionNowait sessionId => b.streams.get? sessionId
  | _ => none

/-- A call that is to close an open stream finds room for the terminator. -/
def HasRoom (call : BridgeCall P I) (b : VLLMRevisionBridge P I) : Prop :=
  ∀ handle ∈ b.closes call, ∀ stream ∈ b.objects[handle]?,
    stream.closed = false → stream.queue.full = false

/-- Where a close raises, the stream is still open and the sessions that had it still do. -/
def AllOrNothing (call : BridgeCall P I) (b : VLLMRevisionBridge P I) : Prop :=
  ∀ handle ∈ b.closes call, ∀ stream ∈ b.objects[handle]?, ∀ e b', exec call b = .error e b' →
    (∃ stream' ∈ b'.objects[handle]?, stream'.closed = false) ∧
      ∀ sessionId, b.streams.get? sessionId = some handle → b'.streams.get? sessionId = some handle

/-- All stream objects of the bridge have the property `T`. -/
def AllStreams (T : VLLMInputStream P I → Prop) (b : VLLMRevisionBridge P I) : Prop :=
  ∀ stream ∈ b.objects, T stream

theorem after_onStream {α : Type} {handle : ℕ} {b : VLLMRevisionBridge P I}
    {stream : VLLMInputStream P I} (hget : b.objects[handle]? = some stream)
    (x : EStateM BridgeError (VLLMInputStream P I) α) :
    after (onStream handle x) b = { b with objects := b.objects.set handle (after x stream) } := by
  cases hx : x stream <;> simp only [after,onStream,hget,hx]

theorem onStream_none {α : Type} {handle : ℕ} {b : VLLMRevisionBridge P I}
    (hget : b.objects[handle]? = none) (x : EStateM BridgeError (VLLMInputStream P I) α) :
    onStream handle x b = .error .noSuchStream b := by
  simp only [onStream,hget]

theorem keeps_onStream {α : Type} {T : VLLMInputStream P I → Prop} (handle : ℕ)
    {x : EStateM BridgeError (VLLMInputStream P I) α} (h : Keeps T x) :
    Keeps (AllStreams T) (onStream handle x) := by
  intro b hb
  cases hget : b.objects[handle]? with
  | none => rwa [after_error (onStream_none hget x)]
  | some stream =>
    rw [after_onStream hget]
    intro other hother
    rcases List.mem_or_eq_of_mem_set hother with hold | rfl
    · exact hb other hold
    · exact h stream (hb stream (List.mem_of_getElem? hget))

/-- `open_session` changes nothing, or lists a new open stream where the session has none. -/
theorem openSession_cases (sessionId : SessionId) (samplingParams : P) (maxPendingUpdates : ℤ)
    (inputFactory : InputFactory P I) (b : VLLMRevisionBridge P I) :
    (∃ e, openSession sessionId samplingParams maxPendingUpdates inputFactory b = .error e b) ∨
    ∃ stream, VLLMInputStream.init samplingParams maxPendingUpdates inputFactory = .ok stream ∧
      b.streams.get? sessionId = none ∧
      openSession sessionId samplingParams maxPendingUpdates inputFactory b =
        .ok b.objects.length ⟨b.streams.set sessionId b.objects.length,b.objects ++ [stream]⟩ := by
  unfold openSession
  split
  · exact .inl ⟨_,rfl⟩
  split
  · exact .inl ⟨_,rfl⟩
  next hnew =>
  split
  · exact .inl ⟨_,rfl⟩
  · next stream hinit => exact .inr ⟨stream,hinit,Option.not_isSome_iff_eq_none.mp hnew,rfl⟩

theorem keeps_openSession {T : VLLMInputStream P I → Prop} (hopen : ∀ s, s.closed = false → T s)
    (sessionId : SessionId) (samplingParams : P) (maxPendingUpdates : ℤ)
    (inputFactory : InputFactory P I) :
    Keeps (AllStreams T) (openSession sessionId samplingParams maxPendingUpdates inputFactory) := by
  intro b hb
  rcases openSession_cases sessionId samplingParams maxPendingUpdates inputFactory b with
    ⟨e,hraise⟩ | ⟨stream,hinit,-,hok⟩
  · rwa [after_error hraise]
  · rw [after_ok hok]
    intro other hother
    rcases List.mem_append.mp hother with hold | hnew
    · exact hb other hold
    · rw [List.mem_singleton.mp hnew]
      exact hopen stream (VLLMInputStream.init_ok hinit).1

/-- A close is `close_nowait` on its stream, in a bridge with the same stream objects. -/
theorem exec_closes {call : BridgeCall P I} {b : VLLMRevisionBridge P I} {handle : ℕ}
    (h : b.closes call = some handle) :
    ∃ b₀ : VLLMRevisionBridge P I, b₀.objects = b.objects ∧
      exec call b = (do let _ ← onStream handle VLLMInputStream.closeNowait) b₀ := by
  cases call with
  | closeNowait handle' =>
    cases h
    exact ⟨b,rfl,rfl⟩
  | closeSessionNowait sessionId =>
    refine ⟨{ b with streams := b.streams.erase sessionId },rfl,?_⟩
    have hlisted : b.streams.get? sessionId = some handle := h
    simp only [exec,closeSessionNowait,bind_ok (get_apply b),hlisted,bind_ok (modify_apply _ b)]
  | _ => cases h

/-- With room the close returns, and every closed stream has its terminator. -/
theorem exec_closes_room {call : BridgeCall P I} {b : VLLMRevisionBridge P I} {handle : ℕ}
    {stream : VLLMInputStream P I} (h : b.closes call = some handle)
    (hget : b.objects[handle]? = some stream)
    (hb : b.AllStreams (fun s => s.closed = true → s.Terminated))
    (hroom : stream.closed = false → stream.queue.full = false) :
    ∃ b', exec call b = .ok () b' ∧ b'.AllStreams (fun s => s.closed = true → s.Terminated) := by
  obtain ⟨b₀,hobjects,hexec⟩ := exec_closes h
  obtain ⟨put,t,hclose,ht⟩ := VLLMInputStream.closeNowait_settles
    (hb stream (List.mem_of_getElem? hget)) hroom
  have hon : onStream handle VLLMInputStream.closeNowait b₀ =
      .ok put { b₀ with objects := b₀.objects.set handle t } := by
    simp only [onStream,hobjects,hget,hclose]
  refine ⟨_,hexec.trans (bind_ok hon),?_⟩
  intro other hother
  rcases List.mem_or_eq_of_mem_set hother with hold | rfl
  · exact hb other (hobjects ▸ hold)
  · exact ht

/-- Without room it raises, and the stream is marked closed. -/
theorem exec_closes_full {call : BridgeCall P I} {b : VLLMRevisionBridge P I} {handle : ℕ}
    {stream : VLLMInputStream P I} (h : b.closes call = some handle)
    (hget : b.objects[handle]? = some stream) (hopen : stream.closed = false)
    (hfull : stream.queue.full = true) :
    ∃ b', exec call b = .error .queueFull b' ∧
      b'.objects[handle]? = some { stream with closed := true } := by
  obtain ⟨b₀,hobjects,hexec⟩ := exec_closes h
  have hon : onStream handle VLLMInputStream.closeNowait b₀ =
      .error .queueFull { b₀ with objects := b₀.objects.set handle { stream with closed := true } } := by
    simp only [onStream,hobjects,hget,VLLMInputStream.closeNowait_full hopen hfull]
  refine ⟨_,hexec.trans (bind_error hon),?_⟩
  show (b₀.objects.set handle { stream with closed := true })[handle]? = _
  rw [hobjects,List.getElem?_set_self (List.getElem?_eq_some_iff.mp hget).1]

theorem after_exec_terminated {call : BridgeCall P I} {b : VLLMRevisionBridge P I}
    (hb : b.AllStreams (fun s => s.closed = true → s.Terminated)) (hroom : b.HasRoom call) :
    (after (exec call) b).AllStreams (fun s => s.closed = true → s.Terminated) := by
  cases hcloses : b.closes call with
  | some handle =>
    cases hget : b.objects[handle]? with
    | some stream =>
      obtain ⟨b',hexec,hb'⟩ := exec_closes_room hcloses hget hb (hroom handle hcloses stream hget)
      rwa [after_ok hexec]
    | none =>
      obtain ⟨b₀,hobjects,hexec⟩ := exec_closes hcloses
      have hon := onStream_none (hobjects ▸ hget) VLLMInputStream.closeNowait
      rw [after_error (hexec.trans (bind_error hon))]
      exact fun stream hstream => hb stream (hobjects ▸ hstream)
  | none =>
    have hopened : ∀ s : VLLMInputStream P I, s.closed = false → s.closed = true → s.Terminated := by
      intro s hopen hclosed
      rw [hopen] at hclosed
      cases hclosed
    have hpublish := fun handle update =>
      keeps_onStream handle (VLLMInputStream.keeps_publishNowait (P := P) (I := I) update)
    cases call with
    | openSession sessionId samplingParams maxPendingUpdates inputFactory =>
      exact keeps_bind (keeps_openSession hopened _ _ _ _) (fun _ => keeps_pure _) b hb
    | openBranch update samplingParams inputFactory =>
      refine keeps_bind (keeps_bind keeps_get (fun _ => ?_)) (fun _ => keeps_pure _) b hb
      refine keeps_ite (fun _ => keeps_throw _) (fun _ => ?_)
      refine keeps_bind (keeps_openSession hopened _ _ _ _) (fun handle => ?_)
      exact keeps_bind (hpublish handle _) (fun _ => keeps_pure _)
    | updateSession update =>
      refine keeps_bind keeps_get (fun t => ?_) b hb
      cases t.streams.get? update.sessionId with
      | none => exact keeps_throw _
      | some handle => exact keeps_bind (hpublish handle _) (fun _ => keeps_pure _)
    | publishNowait handle update => exact keeps_bind (hpublish handle update) (fun _ => keeps_pure _) b hb
    | closeNowait handle => cases hcloses
    | closeSessionNowait sessionId =>
      have hunlisted : b.streams.get? sessionId = none := hcloses
      have hraise : exec (.closeSessionNowait sessionId) b = .error (.keyError sessionId) b := by
        simp only [exec,closeSessionNowait,bind_ok (get_apply b),hunlisted,throw_apply]
      rwa [after_error hraise]
    | pull handle =>
      exact keeps_bind (keeps_onStream handle VLLMInputStream.keeps_pull) (fun _ => keeps_pure _) b hb

/-- A call closes all or nothing, and leaves no closed stream without an end, exactly where a
close has room. -/
theorem hasRoom_iff {call : BridgeCall P I} {b : VLLMRevisionBridge P I}
    (hb : b.AllStreams (fun s => s.closed = true → s.Terminated)) :
    (b.AllOrNothing call ∧ (after (exec call) b).AllStreams VLLMInputStream.EndsWhenClosed) ↔
      b.HasRoom call := by
  refine ⟨?_,fun hroom => ⟨?_,?_⟩⟩
  · rintro ⟨hall,-⟩ handle hcloses stream hget hopen
    by_contra hfull
    obtain ⟨b',hexec,hget'⟩ := exec_closes_full hcloses hget hopen (by simpa using hfull)
    obtain ⟨⟨stream',hmem,hopen'⟩,-⟩ := hall handle hcloses stream hget _ b' hexec
    rw [Option.mem_def,hget',Option.some.injEq] at hmem
    rw [← hmem] at hopen'
    cases hopen'
  · intro handle hcloses stream hget e b' hexec
    obtain ⟨b'',hok,-⟩ := exec_closes_room hcloses hget hb (hroom handle hcloses stream hget)
    rw [hexec] at hok
    cases hok
  · intro stream hstream
    exact .of_terminated (after_exec_terminated hb hroom stream hstream)

/-- Every close of a run is all or nothing, and no state of it has a closed stream without an
end, exactly if every close of an open stream finds room in its queue. -/
theorem closes_are_all_or_nothing (calls : List (BridgeCall P I)) :
    RunMeets exec (fun call b => b.AllOrNothing call ∧
        (after (exec call) b).AllStreams VLLMInputStream.EndsWhenClosed) calls init ↔
      RunMeets exec (fun call b => b.HasRoom call) calls init := by
  refine runMeets_congr (I := AllStreams (fun s => s.closed = true → s.Terminated))
    (fun call b hb => hasRoom_iff hb) (fun call b hb hmeets => ?_) calls (by simp [AllStreams,init])
  exact after_exec_terminated hb ((hasRoom_iff hb).mp hmeets)

/-- A queue of one update, and a close while the update is still in it. -/
def closedWhileFull : List (BridgeCall Unit Unit) :=
  [.openSession (lit "s") () 1 (fun _ _ => some ()),
    .updateSession oneToken,
    .closeSessionNowait (lit "s")]

theorem close_loses_stream :
    ¬RunMeets exec (fun call b => b.AllOrNothing call ∧
      (after (exec call) b).AllStreams VLLMInputStream.EndsWhenClosed) closedWhileFull init := by
  rintro ⟨-,-,⟨hall,-⟩,-⟩
  -- the close raises `QueueFull`; its stream is closed by then
  obtain ⟨⟨stream,hstream,hopen⟩,-⟩ := hall 0 rfl _ rfl .queueFull _ rfl
  cases hstream
  cases hopen

end VLLMRevisionBridge
end CueBee.Bridge
