import CueBee.Transcript.RevisionAdapter

/-! # A sequence of events at the revision adapter

What `normalize` lets through of any sequence of events: for each segment the revisions
increase, and nothing follows its final. The two counters account for the rest.
-/
namespace CueBee.Transcript
open Cache

def STTEvent.key (event : STTEvent) : SessionId × SegmentId := (event.sessionId,event.segmentId)

namespace RevisionAdapter
variable {event normalized : STTEvent} {a next : RevisionAdapter}

/-- The accepted ones of the events, in order, and the adapter after all of them. -/
def intake : List STTEvent → RevisionAdapter → List STTEvent × RevisionAdapter
  | [], a => ([],a)
  | event :: rest, a =>
    let (normalized,a) := normalize event a
    let (accepted,a) := intake rest a
    (normalized.toList ++ accepted,a)

theorem intake_cons (event : STTEvent) (rest : List STTEvent) (a : RevisionAdapter) :
    intake (event :: rest) a =
      ((normalize event a).1.toList ++ (intake rest (normalize event a).2).1,
        (intake rest (normalize event a).2).2) := rfl

/-- Wherever the event came from, its cursor has passed it now. -/
theorem past_normalize_self (event : STTEvent) (a : RevisionAdapter) :
    (normalize event a).2.Past event.key event.revision := by
  by_cases hpast : (a.cursor event.key).finalized = true ∨
      (event.revision : ℤ) ≤ (a.cursor event.key).revision
  · exact Past.normalize hpast event
  · obtain ⟨hfinal,hlt⟩ := not_or.mp hpast
    have hopen : (a.cursor (event.sessionId,event.segmentId)).finalized = false :=
      Bool.eq_false_iff.mpr hfinal
    obtain ⟨next,hnorm,hcursors⟩ := normalize_accepted hopen (not_le.mp hlt)
    rw [hnorm]
    refine Or.inr ?_
    rw [show event.key = (event.sessionId,event.segmentId) from rfl,hcursors,if_pos rfl]

theorem relabel_type (cursor : SegmentCursor) (event : STTEvent) :
    (relabel cursor event).type = .commitFinal ↔ event.type = .commitFinal :=
  normalizedType_kind cursor event.type (by decide)

/-- The adapter had not passed what it lets through. -/
theorem not_past_of_normalize (h : normalize event a = (some normalized,next)) :
    ¬a.Past normalized.key normalized.revision := by
  obtain ⟨hfinal,hlt,rfl,-⟩ := normalize_some h
  rintro (hpast | hpast)
  · exact absurd hpast (Bool.eq_false_iff.mp hfinal)
  · exact absurd hpast (not_le.mpr hlt)

/-- Nothing is let through that the adapter has passed. -/
theorem intake_not_past {events : List STTEvent} {a : RevisionAdapter} {e : STTEvent}
    (he : e ∈ (intake events a).1) : ¬a.Past e.key e.revision := by
  induction events generalizing a with
  | nil => cases he
  | cons event rest ih =>
    rw [intake_cons,List.mem_append] at he
    rcases he with he | he
    · have hnorm : normalize event a = (some e,(normalize event a).2) :=
        Prod.ext (by simpa using he) rfl
      exact not_past_of_normalize hnorm
    · exact fun hpast => ih he (hpast.normalize event)

/-- Of two accepted events of one segment the later one has the greater revision, and the
earlier one is no final. -/
theorem intake_increasing (events : List STTEvent) (a : RevisionAdapter) :
    (intake events a).1.Pairwise (fun e f => e.key = f.key →
      e.revision < f.revision ∧ e.type ≠ .commitFinal) := by
  induction events generalizing a with
  | nil => exact .nil
  | cons event rest ih =>
    rw [intake_cons]
    cases hnorm : (normalize event a).1 with
    | none => exact ih _
    | some e =>
      have hpair : normalize event a = (some e,(normalize event a).2) := Prod.ext hnorm rfl
      obtain ⟨-,-,he,hcursor⟩ := normalize_some hpair
      have htype : e.type = .commitFinal ↔ event.type = .commitFinal :=
        he ▸ relabel_type _ event
      refine List.pairwise_cons.mpr ⟨fun f hf hkey => ?_,ih _⟩
      have hkeys : f.key = (event.sessionId,event.segmentId) := by
        rw [← hkey,he]
        rfl
      have hfree := not_or.mp (intake_not_past hf)
      rw [hkeys,hcursor] at hfree
      have hrevision : e.revision = event.revision := by rw [he]; rfl
      refine ⟨?_,fun hfinal => hfree.1 (by simpa using htype.mp hfinal)⟩
      have hlt : (event.revision : ℤ) < f.revision := not_le.mp hfree.2
      omega

/-- Every call accepts its event or counts it. -/
theorem normalize_counts (event : STTEvent) (a : RevisionAdapter) :
    (normalize event a).1.toList.length + (normalize event a).2.duplicatesDropped +
      (normalize event a).2.staleDropped = a.duplicatesDropped + a.staleDropped + 1 := by
  unfold normalize
  dsimp only
  split
  · simp only [touch,Option.toList_none,List.length_nil]
    omega
  · split
    · simp only [touch,Option.toList_none,List.length_nil]
      omega
    · split
      · simp only [touch,Option.toList_none,List.length_nil]
        omega
      · simp only [touch,Option.toList_some,List.length_singleton]
        omega

theorem intake_counts (events : List STTEvent) (a : RevisionAdapter) :
    (intake events a).1.length + (intake events a).2.duplicatesDropped +
      (intake events a).2.staleDropped =
    events.length + a.duplicatesDropped + a.staleDropped := by
  induction events generalizing a with
  | nil => simp [intake]
  | cons event rest ih =>
    have hone := normalize_counts event a
    have hrest := ih (normalize event a).2
    rw [intake_cons]
    simp only [List.length_append,List.length_cons]
    omega

/-- A cursor that has passed something is stored. -/
theorem Past.stored {key : SessionId × SegmentId} {revision : ℕ} (h : a.Past key revision) :
    ∃ cursor, a.segments.get? key = some cursor := by
  cases hget : a.segments.get? key with
  | some cursor => exact ⟨cursor,rfl⟩
  | none =>
    have hfresh : a.cursor key = .fresh := by rw [cursor,hget]; rfl
    rcases h with h | h
    · rw [hfresh] at h
      cases h
    · rw [hfresh] at h
      have hneg : (revision : ℤ) ≤ -1 := h
      omega

/-- An event that is dropped again leaves the table of cursors as it is. -/
theorem normalize_again (h : a.Past event.key event.revision) :
    (normalize event a).1 = none ∧ (normalize event a).2.segments = a.segments := by
  refine ⟨normalize_none h,?_⟩
  obtain ⟨cursor,hget⟩ := h.stored
  have htouch : a.touch event.key = a := by
    unfold touch Dict.setDefault
    rw [hget]
  have hself : a.touch (event.sessionId,event.segmentId) = a := htouch
  unfold normalize
  simp only [hself]
  split
  · rfl
  · rename_i hfinal
    split
    · rfl
    · rename_i hne
      split
      · rfl
      · rename_i hlt
        rcases h with h | h
        · exact absurd h hfinal
        · have hle : (event.revision : ℤ) ≤
            (a.cursor (event.sessionId,event.segmentId)).revision := h
          omega

/-- Only the key of the event can be new in the table of cursors. -/
theorem normalize_stored {key : SessionId × SegmentId} {cursor : SegmentCursor}
    (h : (normalize event a).2.segments.get? key = some cursor) :
    key = event.key ∨ a.segments.get? key = some cursor := by
  by_cases hkey : key = event.key
  · exact .inl hkey
  · refine .inr ?_
    have htouch : (a.touch event.key).segments.get? key = a.segments.get? key := by
      rw [touch,Dict.get?_setDefault,if_neg hkey]
    rw [← htouch,← h]
    unfold normalize
    dsimp only
    split
    · rfl
    · split
      · rfl
      · split
        · rfl
        · exact (Dict.get?_set_ne _ _ hkey).symm

end RevisionAdapter
end CueBee.Transcript
