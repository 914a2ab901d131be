import CueBee.Transcript.EventSchema

/-! # The revision adapter

One cursor for each pair of a session and a segment: the last accepted revision and
whether the segment's final has been accepted.
-/
namespace CueBee.Transcript
open Cache

structure SegmentCursor where
  revision : ℤ
  finalized : Bool
deriving DecidableEq

def SegmentCursor.fresh : SegmentCursor := ⟨-1,false⟩

structure RevisionAdapter where
  segments : Dict (SessionId × SegmentId) SegmentCursor
  duplicatesDropped : ℕ
  staleDropped : ℕ

namespace RevisionAdapter

def init : RevisionAdapter := ⟨Dict.empty,0,0⟩

def cursor (a : RevisionAdapter) (key : SessionId × SegmentId) : SegmentCursor :=
  (a.segments.get? key).getD .fresh

/-- The state after `setdefault` on the cursor of `key`. -/
def touch (key : SessionId × SegmentId) (a : RevisionAdapter) : RevisionAdapter :=
  { a with segments := a.segments.setDefault key .fresh }

def normalizedType (cursor : SegmentCursor) (type : EventType) : EventType :=
  if type = .appendPartial ∨ type = .revisePartial then
    if cursor.revision < 0 then .appendPartial else .revisePartial
  else type

theorem normalizedType_kind (cursor : SegmentCursor) (type : EventType) {other : EventType}
    (h : other ≠ .appendPartial ∧ other ≠ .revisePartial) :
    normalizedType cursor type = other ↔ type = other := by
  obtain ⟨h1,h2⟩ := h
  unfold normalizedType
  by_cases hp : type = .appendPartial ∨ type = .revisePartial
  · rw [if_pos hp]
    split <;> rcases hp with rfl | rfl <;> simp [h1.symm,h2.symm]
  · rw [if_neg hp]

/-- The event with the label that the cursor gives it. -/
def relabel (cursor : SegmentCursor) (event : STTEvent) : STTEvent :=
  { event with
    type := normalizedType cursor event.type
    text_present := fun h1 h2 => event.text_present
      (fun h => h1 ((normalizedType_kind cursor event.type (by decide)).mpr h))
      (fun h => h2 ((normalizedType_kind cursor event.type (by decide)).mpr h)) }

/-- `none` for a stale or duplicate event. -/
def normalize (event : STTEvent) (a : RevisionAdapter) : Option STTEvent × RevisionAdapter :=
  let key := (event.sessionId,event.segmentId)
  let cursor := a.cursor key
  let a := a.touch key
  if cursor.finalized = true then (none,{ a with staleDropped := a.staleDropped + 1 })
  else if (event.revision : ℤ) = cursor.revision then
    (none,{ a with duplicatesDropped := a.duplicatesDropped + 1 })
  else if (event.revision : ℤ) < cursor.revision then
    (none,{ a with staleDropped := a.staleDropped + 1 })
  else (some (relabel cursor event),
    { a with segments := a.segments.set key ⟨event.revision,event.type = .commitFinal⟩ })

variable {event normalized : STTEvent} {a next : RevisionAdapter}

theorem normalize_some (h : normalize event a = (some normalized,next)) :
    (a.cursor (event.sessionId,event.segmentId)).finalized = false ∧
    (a.cursor (event.sessionId,event.segmentId)).revision < event.revision ∧
    normalized = relabel (a.cursor (event.sessionId,event.segmentId)) event ∧
    next.cursor (event.sessionId,event.segmentId) =
      ⟨event.revision,event.type = .commitFinal⟩ := by
  unfold normalize at h
  dsimp only at h
  split at h
  · cases h
  · rename_i hfinal
    split at h
    · cases h
    · rename_i hne
      split at h
      · cases h
      · rename_i hlt
        rw [Prod.mk.injEq,Option.some.injEq] at h
        obtain ⟨hnorm,hnext⟩ := h
        refine ⟨by simpa using hfinal,by omega,hnorm.symm,?_⟩
        simp [← hnext,cursor]

/-- A revision that is not past the cursor is dropped. -/
theorem normalize_none (h : (a.cursor (event.sessionId,event.segmentId)).finalized = true ∨
    (event.revision : ℤ) ≤ (a.cursor (event.sessionId,event.segmentId)).revision) :
    (normalize event a).1 = none := by
  unfold normalize
  dsimp only
  split
  · rfl
  · rename_i hfinal
    split
    · rfl
    · rename_i hne
      split
      · rfl
      · rename_i hlt
        rcases h with h | h
        · exact absurd h hfinal
        · omega

theorem cursor_touch (a : RevisionAdapter) (key k : SessionId × SegmentId) :
    (a.touch key).cursor k = a.cursor k := by
  simp only [cursor,touch,Dict.get?_setDefault]
  by_cases hk : k = key
  · simp [hk]
  · simp [hk]

/-- A dropped event moves no cursor. -/
theorem normalize_dropped (h : (a.cursor (event.sessionId,event.segmentId)).finalized = true ∨
    (event.revision : ℤ) ≤ (a.cursor (event.sessionId,event.segmentId)).revision) :
    ∃ next, normalize event a = (none,next) ∧ ∀ key, next.cursor key = a.cursor key := by
  refine ⟨(normalize event a).2,Prod.ext (normalize_none h) rfl,fun key => ?_⟩
  have hcursor := cursor_touch a (event.sessionId,event.segmentId) key
  unfold normalize
  dsimp only
  split
  · exact hcursor
  · rename_i hfinal
    split
    · exact hcursor
    · rename_i hne
      split
      · exact hcursor
      · rename_i hlt
        rcases h with h | h
        · exact absurd h hfinal
        · omega

/-- An event past the cursor moves it, and no other. -/
theorem normalize_accepted (hfinal : (a.cursor (event.sessionId,event.segmentId)).finalized = false)
    (hlt : (a.cursor (event.sessionId,event.segmentId)).revision < event.revision) :
    ∃ next, normalize event a =
        (some (relabel (a.cursor (event.sessionId,event.segmentId)) event),next) ∧
      ∀ key, next.cursor key = if key = (event.sessionId,event.segmentId) then
        ⟨event.revision,event.type = .commitFinal⟩ else a.cursor key := by
  unfold normalize
  dsimp only
  rw [if_neg (by simp [hfinal]),if_neg (by omega),if_neg (by omega)]
  refine ⟨_,rfl,fun key => ?_⟩
  by_cases hk : key = (event.sessionId,event.segmentId)
  · rw [if_pos hk,hk]
    simp [cursor]
  · rw [if_neg hk,← cursor_touch a (event.sessionId,event.segmentId) key]
    simp only [cursor,Dict.get?_set_ne _ _ hk]

/-- An event moves no cursor but its own. -/
theorem cursor_normalize_ne {key : SessionId × SegmentId}
    (hkey : key ≠ (event.sessionId,event.segmentId)) :
    (normalize event a).2.cursor key = a.cursor key := by
  by_cases hpast : (a.cursor (event.sessionId,event.segmentId)).finalized = true ∨
      (event.revision : ℤ) ≤ (a.cursor (event.sessionId,event.segmentId)).revision
  · obtain ⟨next,hnorm,hcursors⟩ := normalize_dropped hpast
    rw [hnorm,hcursors]
  · obtain ⟨hfinal,hlt⟩ := not_or.mp hpast
    obtain ⟨next,hnorm,hcursors⟩ := normalize_accepted (by simpa using hfinal) (not_le.mp hlt)
    rw [hnorm,hcursors,if_neg hkey]

/-- The cursor does not let `revision` through any more. -/
def Past (key : SessionId × SegmentId) (revision : ℕ) (a : RevisionAdapter) : Prop :=
  (a.cursor key).finalized = true ∨ (revision : ℤ) ≤ (a.cursor key).revision

/-- Cursors only move forward. -/
theorem Past.normalize {key : SessionId × SegmentId} {revision : ℕ} (h : a.Past key revision)
    (event : STTEvent) : (RevisionAdapter.normalize event a).2.Past key revision := by
  have htouched : (a.touch (event.sessionId,event.segmentId)).Past key revision := by
    unfold Past
    rw [cursor_touch]
    exact h
  unfold RevisionAdapter.normalize
  dsimp only
  split
  · exact htouched
  · rename_i hfinal
    split
    · exact htouched
    · rename_i hne
      split
      · exact htouched
      · rename_i hlt
        by_cases hk : key = (event.sessionId,event.segmentId)
        · -- the event is past the cursor, so that the cursor grows
          subst hk
          rcases h with h | h
          · exact absurd h hfinal
          · refine Or.inr ?_
            simp only [cursor,Dict.get?_set_self,Option.getD_some]
            omega
        · unfold Past cursor
          rw [Dict.get?_set_ne _ _ hk]
          exact htouched

end RevisionAdapter
end CueBee.Transcript
