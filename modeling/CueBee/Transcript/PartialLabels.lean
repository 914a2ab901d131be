import Mathlib.Data.List.Induction
import CueBee.Transcript.EventIntake

/-! # The labels of partial events

`normalize` replaces the vendor's label of a partial event. It reads the new label off the
cursor of the segment, which every accepted event moves, whatever its type.
-/
namespace CueBee.Transcript
open Cache PyStr

/-- The two partial types. -/
def EventType.Partial (type : EventType) : Prop := type = .appendPartial ∨ type = .revisePartial

instance (type : EventType) : Decidable type.Partial := inferInstanceAs (Decidable (_ ∨ _))

/-- Everything that an event says, apart from its type. -/
def STTEvent.contents (event : STTEvent) : SessionId × SegmentId × ℕ × PyStr × ℕ × ℕ ×
    Option PyFloat × ℕ × ℕ :=
  (event.sessionId,event.segmentId,event.revision,event.text,event.startMs,event.endMs,
    event.confidence,event.clientEpoch,event.seqNo)

theorem STTEvent.eq_of_contents {e f : STTEvent} (h : e.contents = f.contents)
    (htype : e.type = f.type) : e = f := by
  cases e
  cases f
  simp only [contents,Prod.mk.injEq] at h
  obtain ⟨rfl,rfl,rfl,rfl,rfl,rfl,rfl,rfl,rfl⟩ := h
  cases htype
  rfl

namespace RevisionAdapter
variable {key : SessionId × SegmentId} {earlier pre : List STTEvent} {event e : STTEvent}
variable {a : RevisionAdapter}

theorem intake_append (events more : List STTEvent) (a : RevisionAdapter) :
    intake (events ++ more) a =
      ((intake events a).1 ++ (intake more (intake events a).2).1,
        (intake more (intake events a).2).2) := by
  induction events generalizing a with
  | nil => rfl
  | cons event rest ih => simp only [List.cons_append,intake_cons,ih,List.append_assoc]

theorem intake_concat (events : List STTEvent) (event : STTEvent) (a : RevisionAdapter) :
    intake (events ++ [event]) a =
      ((intake events a).1 ++ (normalize event (intake events a).2).1.toList,
        (normalize event (intake events a).2).2) := by
  rw [intake_append,intake_cons]
  simp [intake]

/-- Newer than every event of its segment before it. -/
def Newest (earlier : List STTEvent) (event : STTEvent) : Prop :=
  ∀ e ∈ earlier, e.key = event.key → e.revision < event.revision

/-- One of the events was a final of the segment and the newest of its events so far. -/
def Closed (key : SessionId × SegmentId) (earlier : List STTEvent) : Prop :=
  ∃ pre final post, earlier = pre ++ final :: post ∧ final.key = key ∧
    final.type = .commitFinal ∧ Newest pre final

theorem closed_concat : Closed key (earlier ++ [event]) ↔ Closed key earlier ∨
    (event.key = key ∧ event.type = .commitFinal ∧ Newest earlier event) := by
  constructor
  · rintro ⟨pre,final,post,heq,hkey,htype,hnew⟩
    rcases post.eq_nil_or_concat with rfl | ⟨rest,last,rfl⟩
    · obtain ⟨rfl,hlast⟩ := List.append_inj' heq rfl
      cases hlast
      exact .inr ⟨hkey,htype,hnew⟩
    · rw [List.concat_eq_append,← List.cons_append,← List.append_assoc] at heq
      obtain ⟨rfl,-⟩ := List.append_inj' heq rfl
      exact .inl ⟨pre,final,rest,rfl,hkey,htype,hnew⟩
  · rintro (⟨pre,final,post,rfl,h⟩ | ⟨hkey,htype,hnew⟩)
    · exact ⟨pre,final,post ++ [event],by simp,h⟩
    · exact ⟨earlier,event,[],rfl,hkey,htype,hnew⟩

/-- What the cursor of a segment knows of the events before. -/
structure Remembers (key : SessionId × SegmentId) (earlier : List STTEvent)
    (cursor : SegmentCursor) : Prop where
  finalized : cursor.finalized = true ↔ Closed key earlier
  revision : ∀ r : ℕ, cursor.finalized = true ∨ (r : ℤ) ≤ cursor.revision ↔
    Closed key earlier ∨ ∃ e ∈ earlier, e.key = key ∧ r ≤ e.revision

theorem Remembers.other {cursor : SegmentCursor} (h : Remembers key earlier cursor)
    (hkey : event.key ≠ key) : Remembers key (earlier ++ [event]) cursor where
  finalized := by
    rw [h.finalized,closed_concat]
    simp [hkey]
  revision r := by
    rw [h.revision,closed_concat]
    simp [hkey,or_and_right,exists_or]

/-- An event is dropped if its segment is closed or an event before it was as new. -/
theorem Remembers.past_iff {cursor : SegmentCursor} (h : Remembers event.key earlier cursor) :
    cursor.finalized = true ∨ (event.revision : ℤ) ≤ cursor.revision ↔
      Closed event.key earlier ∨ ¬Newest earlier event := by
  rw [h.revision]
  simp [Newest]

theorem Remembers.dropped {cursor : SegmentCursor} (h : Remembers event.key earlier cursor)
    (hpast : Closed event.key earlier ∨ ¬Newest earlier event) :
    Remembers event.key (earlier ++ [event]) cursor := by
  have hclosed : Closed event.key (earlier ++ [event]) ↔ Closed event.key earlier := by
    rw [closed_concat]
    tauto
  refine ⟨by rw [hclosed,h.finalized],fun r => ?_⟩
  rw [hclosed,h.revision]
  rcases hpast with hpast | hpast
  · simp [hpast]
  · -- an event that is as new as this one tells all that this one tells
    obtain ⟨e,he,hkey,hle⟩ : ∃ e ∈ earlier, e.key = event.key ∧ event.revision ≤ e.revision := by
      simpa [Newest] using hpast
    refine or_congr_right ⟨?_,?_⟩
    · rintro ⟨f,hf,h⟩
      exact ⟨f,List.mem_append_left _ hf,h⟩
    · rintro ⟨f,hf,hfkey,hr⟩
      rcases List.mem_append.mp hf with hf | hf
      · exact ⟨f,hf,hfkey,hr⟩
      · rw [List.mem_singleton.mp hf] at hr
        exact ⟨e,he,hkey,hr.trans hle⟩

theorem Remembers.accepted (hclosed : ¬Closed event.key earlier) (hnew : Newest earlier event) :
    Remembers event.key (earlier ++ [event]) ⟨event.revision,event.type = .commitFinal⟩ := by
  have hafter : Closed event.key (earlier ++ [event]) ↔ event.type = .commitFinal := by
    rw [closed_concat]
    tauto
  refine ⟨by rw [hafter]; exact decide_eq_true_iff,fun r => ?_⟩
  rw [hafter,decide_eq_true_iff]
  refine or_congr_right ⟨?_,?_⟩
  · intro hr
    exact ⟨event,by simp,rfl,Int.ofNat_le.mp hr⟩
  · rintro ⟨f,hf,hkey,hr⟩
    rcases List.mem_append.mp hf with hf | hf
    · have hlt := hnew f hf hkey
      show (r : ℤ) ≤ event.revision
      omega
    · rw [List.mem_singleton.mp hf] at hr
      exact Int.ofNat_le.mpr hr

theorem remembers (key : SessionId × SegmentId) (earlier : List STTEvent) :
    Remembers key earlier ((intake earlier init).2.cursor key) := by
  induction earlier using List.reverseRecOn with
  | nil =>
    have hnot : ¬Closed key [] := by
      rintro ⟨pre,final,post,heq,-⟩
      simp at heq
    show Remembers key [] .fresh
    constructor
    · simp [SegmentCursor.fresh,hnot]
    · intro r
      have hneg : ¬(r : ℤ) ≤ -1 := by omega
      simp [SegmentCursor.fresh,hnot,hneg]
  | append_singleton earlier event ih =>
    rw [intake_concat]
    by_cases hkey : event.key = key
    · subst hkey
      by_cases hpast : ((intake earlier init).2.cursor event.key).finalized = true ∨
          (event.revision : ℤ) ≤ ((intake earlier init).2.cursor event.key).revision
      · obtain ⟨next,hnorm,hcursors⟩ := normalize_dropped hpast
        rw [hnorm,hcursors]
        exact ih.dropped (ih.past_iff.mp hpast)
      · obtain ⟨hfinal,hlt⟩ := not_or.mp hpast
        obtain ⟨next,hnorm,hcursors⟩ := normalize_accepted (Bool.eq_false_iff.mpr hfinal)
          (not_le.mp hlt)
        obtain ⟨hclosed,hnew⟩ := not_or.mp (fun h => hpast (ih.past_iff.mpr h))
        have hself := hcursors event.key
        rw [if_pos (show event.key = (event.sessionId,event.segmentId) from rfl)] at hself
        rw [hnorm,hself]
        exact .accepted hclosed (not_not.mp hnew)
    · rw [cursor_normalize_ne (Ne.symm hkey)]
      exact ih.other hkey

theorem mem_intake : e ∈ (intake earlier a).1 ↔ ∃ pre event post,
    earlier = pre ++ event :: post ∧ (normalize event (intake pre a).2).1 = some e := by
  induction earlier generalizing a with
  | nil => simp [intake]
  | cons first rest ih =>
    rw [intake_cons,List.mem_append,Option.mem_toList,ih]
    constructor
    · rintro (hfirst | ⟨pre,event,post,rfl,hevent⟩)
      · exact ⟨[],first,rest,rfl,hfirst⟩
      · exact ⟨first :: pre,event,post,rfl,hevent⟩
    · rintro ⟨pre,event,post,heq,hevent⟩
      cases pre with
      | nil =>
        cases heq
        exact .inl hevent
      | cons x pre =>
        cases heq
        exact .inr ⟨pre,event,post,rfl,hevent⟩

/-- An event is accepted if it is the newest of its segment and the segment is not closed. -/
theorem accepted_iff : (∃ normalized, (normalize event (intake earlier init).2).1 = some normalized) ↔
    ¬Closed event.key earlier ∧ Newest earlier event := by
  have hpast := (remembers event.key earlier).past_iff
  rw [← not_iff_not,not_and_or,not_not,← hpast]
  constructor
  · intro hnone
    by_contra hnot
    obtain ⟨hfinal,hlt⟩ := not_or.mp hnot
    obtain ⟨next,hnorm,-⟩ := normalize_accepted (Bool.eq_false_iff.mpr hfinal) (not_le.mp hlt)
    exact hnone ⟨_,congrArg Prod.fst hnorm⟩
  · rintro h ⟨normalized,hsome⟩
    rw [normalize_none h] at hsome
    cases hsome

/-- The new label of an accepted partial event says whether its segment had any event before. -/
theorem normalized_eq {normalized : STTEvent}
    (h : (normalize event (intake earlier init).2).1 = some normalized) :
    normalized.contents = event.contents ∧ normalized.type =
      if event.type.Partial then
        if ∃ e ∈ earlier, e.key = event.key then .revisePartial else .appendPartial
      else event.type := by
  obtain ⟨hfinal,-,rfl,-⟩ := normalize_some (Prod.ext h rfl)
  have hopen : ¬((intake earlier init).2.cursor event.key).finalized = true :=
    Bool.eq_false_iff.mp hfinal
  have hclosed := (accepted_iff.mp ⟨_,h⟩).1
  have hrevision := (remembers event.key earlier).revision 0
  rw [or_iff_right hopen,or_iff_right hclosed] at hrevision
  have hcursor : ((intake earlier init).2.cursor event.key).revision < 0 ↔
      ¬∃ e ∈ earlier, e.key = event.key := by
    rw [← not_le,not_iff_not]
    simpa using hrevision
  refine ⟨rfl,?_⟩
  show normalizedType ((intake earlier init).2.cursor event.key) event.type = _
  unfold normalizedType
  simp only [hcursor,ite_not]
  rfl

/-- Every accepted event of the segment keeps what it says; the first partial among them is
labelled `APPEND_PARTIAL`, every later one `REVISE_PARTIAL`, and no other event changes. -/
def Consistent (key : SessionId × SegmentId) (events : List STTEvent) : Prop :=
  ∀ pre event post normalized, events = pre ++ event :: post → event.key = key →
    (normalize event (intake pre init).2).1 = some normalized →
    normalized.contents = event.contents ∧ (¬event.type.Partial → normalized = event) ∧
    (event.type.Partial → normalized.type =
      if ∃ e ∈ (intake pre init).1, e.key = key ∧ e.type.Partial then .revisePartial
      else .appendPartial)

/-- If a partial of the segment comes before the segment is closed, and newer than the segment's
events so far, then the first event of the segment is a partial. -/
def OpensWithPartial (key : SessionId × SegmentId) (events : List STTEvent) : Prop :=
  ∀ pre event post, events = pre ++ event :: post → event.key = key → event.type.Partial →
    ¬Closed key pre → Newest pre event →
    ∀ first ∈ events.find? (fun e => e.key = key), first.type.Partial

theorem partial_iff {normalized : STTEvent}
    (h : (normalize event (intake earlier init).2).1 = some normalized) :
    normalized.type.Partial ↔ event.type.Partial := by
  rw [(normalized_eq h).2]
  by_cases hp : event.type.Partial
  · rw [if_pos hp]
    split <;> exact iff_of_true (by decide) hp
  · rw [if_neg hp]

theorem key_eq {normalized : STTEvent}
    (h : (normalize event (intake earlier init).2).1 = some normalized) :
    normalized.key = event.key := by
  have hcontents := (normalized_eq h).1
  simp only [STTEvent.contents,Prod.mk.injEq] at hcontents
  exact Prod.ext hcontents.1 hcontents.2.1

/-- The first event of a segment is accepted, whatever it is. -/
theorem first_accepted {events : List STTEvent} {first : STTEvent}
    (h : events.find? (fun e => e.key = key) = some first) :
    first.key = key ∧ ∃ before after, events = before ++ first :: after ∧
      ∃ accepted, (normalize first (intake before init).2).1 = some accepted := by
  obtain ⟨hfirst,before,after,rfl,hbefore⟩ := List.find?_eq_some_iff_append.mp h
  have hkey : first.key = key := by simpa using hfirst
  have hunseen : ∀ e ∈ before, e.key ≠ first.key := by
    intro e he
    rw [hkey]
    simpa using hbefore e he
  have hopen : ¬Closed first.key before := by
    rintro ⟨p,final,q,rfl,hfinal,-⟩
    exact hunseen final (by simp) hfinal
  refine ⟨hkey,before,after,rfl,accepted_iff.mpr ⟨hopen,?_⟩⟩
  intro e he hsame
  exact absurd hsame (hunseen e he)

/-- In a consistent sequence no partial is accepted of a segment that begins with another event. -/
theorem Consistent.no_partial {events : List STTEvent} (h : Consistent key events)
    {post : List STTEvent} (hpre : events = pre ++ post)
    (hfirst : ∀ first ∈ pre.find? (fun e => e.key = key), ¬first.type.Partial) :
    ¬∃ e ∈ (intake pre init).1, e.key = key ∧ e.type.Partial := by
  induction pre using List.reverseRecOn generalizing post with
  | nil => simp [intake]
  | append_singleton pre event ih =>
    have hbefore : ∀ first ∈ pre.find? (fun e => e.key = key), ¬first.type.Partial := by
      intro first hf
      refine hfirst first ?_
      rw [List.find?_append,hf]
      rfl
    have hnone := ih (by simpa using hpre) hbefore
    rintro ⟨e,he,hkey,hrevises⟩
    rw [intake_concat,List.mem_append,Option.mem_toList] at he
    rcases he with he | he
    · exact hnone ⟨e,he,hkey,hrevises⟩
    · rw [key_eq he] at hkey
      have hevent := (partial_iff he).mp hrevises
      -- the segment begins before this partial, which is therefore labelled a revision
      have hseen : ∃ e ∈ pre, e.key = event.key := by
        by_contra hnot
        push Not at hnot
        refine hfirst event ?_ hevent
        have hfind : pre.find? (fun e => e.key = key) = none := by
          simpa [hkey] using hnot
        rw [List.find?_append,hfind]
        simp [hkey]
      have hlabel := (h pre event post e (by simpa using hpre) hkey he).2.2 hevent
      rw [(normalized_eq he).2,if_pos hevent,if_pos hseen,if_neg hnone] at hlabel
      cases hlabel

/-- The labels of a segment are right if and only if the segment begins with a partial or no
partial of it is accepted. -/
theorem labels_consistent_iff (key : SessionId × SegmentId) (events : List STTEvent) :
    Consistent key events ↔ OpensWithPartial key events := by
  constructor
  · intro h pre event post heq hkey hrevises hclosed hnew first hfirst
    by_contra hnot
    obtain ⟨normalized,hnorm⟩ := accepted_iff.mpr ⟨hkey ▸ hclosed,hnew⟩
    have hfirst' : ∀ f ∈ (pre ++ [event]).find? (fun e => e.key = key), ¬f.type.Partial := by
      intro f hf
      rw [heq,List.append_cons,List.find?_append,hf] at hfirst
      cases hfirst
      exact hnot
    have hsplit : events = (pre ++ [event]) ++ post := by simpa using heq
    refine h.no_partial hsplit hfirst' ⟨normalized,?_,?_,?_⟩
    · rw [intake_concat,hnorm]
      simp
    · rw [key_eq hnorm,hkey]
    · exact (partial_iff hnorm).mpr hrevises
  · rintro h pre event post normalized rfl rfl hnorm
    obtain ⟨hcontents,htype⟩ := normalized_eq hnorm
    obtain ⟨hclosed,hnew⟩ := accepted_iff.mp ⟨normalized,hnorm⟩
    refine ⟨hcontents,fun hother => ?_,fun hrevises => ?_⟩
    · rw [if_neg hother] at htype
      exact STTEvent.eq_of_contents hcontents htype
    · rw [htype,if_pos hrevises]
      refine if_congr ⟨?_,?_⟩ rfl rfl
      · rintro ⟨e,he,hkey⟩
        -- the first event of the segment is a partial, and it was accepted
        obtain ⟨first,hfirst⟩ : ∃ first, pre.find? (fun e => e.key = event.key) = some first :=
          Option.isSome_iff_exists.mp (List.find?_isSome.mpr ⟨e,he,by simpa using hkey⟩)
        have hopens := h pre event post rfl rfl hrevises hclosed hnew first (by
          rw [List.find?_append,hfirst]
          rfl)
        obtain ⟨hfkey,before,after,rfl,accepted,haccepted⟩ := first_accepted hfirst
        refine ⟨accepted,mem_intake.mpr ⟨before,first,after,rfl,haccepted⟩,?_,?_⟩
        · rw [key_eq haccepted,hfkey]
        · exact (partial_iff haccepted).mpr hopens
      · rintro ⟨e,he,hkey,-⟩
        obtain ⟨before,f,after,rfl,hf⟩ := mem_intake.mp he
        exact ⟨f,by simp,by rw [← key_eq hf,hkey]⟩

def firstWords : STTEvent := heard "g" 1 .appendPartial "yes" (by decide) (by decide)

/-- A speaker is named in the segment before its first words. -/
def named : STTEvent :=
  { firstWords with revision := 0, type := .speakerRelabel, text := [], text_present := by simp }

/-- The first partial of a segment is labelled a revision after a speaker relabel. -/
theorem labels_inconsistent : ¬∀ key events, Consistent key events := by
  intro h
  have hlabel := (h named.key [named,firstWords] [named] firstWords [] _ rfl rfl rfl).2.2 (by decide)
  revert hlabel
  decide

end RevisionAdapter
end CueBee.Transcript
