import Mathlib.Data.List.MinMax
import CueBee.Transcript.RevisionAdapter
import CueBee.Transcript.TranscriptProgress

/-! # The order of delivery

A conversation is a list of segments, each with a set of transcript events. Whatever the
order and the repetitions of a delivery that lets the segments begin in turn, the session
ends with the finals in order, the greatest revision of an unfinished segment, and their
tokens.
-/
namespace CueBee.Transcript
open Cache Raising PyStr ConversationSession SessionManager RevisionAdapter

/-- The transcript events of one segment; a final is the last of its revisions. -/
structure Segment (s : SessionId) where
  segmentId : SegmentId
  events : List STTEvent
  own : ∀ e ∈ events, e.sessionId = s ∧ e.segmentId = segmentId ∧ ¬isMetadata e.type
  distinct : (events.map STTEvent.revision).Nodup
  final_greatest : ∀ f ∈ events, f.type = .commitFinal → ∀ e ∈ events, e.revision ≤ f.revision

namespace Segment
variable {s : SessionId}

def final (g : Segment s) : Option STTEvent := g.events.find? (fun e => e.type = .commitFinal)

def greatest (g : Segment s) : Option STTEvent := g.events.argmax STTEvent.revision

theorem eq_of_revision {g : Segment s} {e f : STTEvent} (he : e ∈ g.events) (hf : f ∈ g.events)
    (h : e.revision = f.revision) : e = f :=
  List.inj_on_of_nodup_map g.distinct he hf h

theorem final_eq_some {g : Segment s} {f : STTEvent} (hf : f ∈ g.events)
    (hfinal : f.type = .commitFinal) : g.final = some f := by
  cases h : g.final with
  | none => exact absurd hfinal (by simpa using List.find?_eq_none.mp h f hf)
  | some e =>
    have he : e ∈ g.events := List.mem_of_find?_eq_some h
    have hefinal : e.type = .commitFinal := by simpa using List.find?_some h
    have hle := g.final_greatest f hf hfinal e he
    have hge := g.final_greatest e he hefinal f hf
    rw [eq_of_revision he hf (le_antisymm hle hge)]

theorem greatest_eq_some {g : Segment s} {l : STTEvent} (hl : l ∈ g.events)
    (hmax : ∀ e ∈ g.events, e.revision ≤ l.revision) : g.greatest = some l := by
  refine List.mem_argmax_iff.mpr ⟨hl,hmax,fun e he hle => ?_⟩
  rw [eq_of_revision he hl (le_antisymm (hmax e he) hle)]

end Segment

/-- All segments but the last have a final. -/
structure Conversation (s : SessionId) where
  segments : List (Segment s)
  distinct : (segments.map Segment.segmentId).Nodup
  finished : ∀ g ∈ segments.dropLast, ∃ f ∈ g.events, f.type = .commitFinal

/-- Every event is delivered, and a segment begins after the final of the one before it. -/
structure Delivers {s : SessionId} (c : Conversation s) (deliveries : List STTEvent) : Prop where
  known : ∀ e ∈ deliveries, ∃ g ∈ c.segments, e ∈ g.events
  all : ∀ g ∈ c.segments, ∀ e ∈ g.events, e ∈ deliveries
  in_turn : ∀ i g g', c.segments[i]? = some g → c.segments[i + 1]? = some g' →
    ∀ pre e post, deliveries = pre ++ e :: post → e ∈ g'.events →
      ∃ f ∈ pre, f ∈ g.events ∧ f.type = .commitFinal

/-- An event on its way through `normalize` and `apply`. -/
def deliver (tok : Tokenizer) (event : STTEvent) :
    EStateM SessionError (RevisionAdapter × SessionManager) (Option TranscriptDiff) := fun p =>
  match normalize event p.1 with
  | (none,adapter) => .ok none (adapter,p.2)
  | (some event,adapter) =>
    match SessionManager.apply tok event p.2 with
    | .ok diff m => .ok (some diff) (adapter,m)
    | .error e m => .error e (adapter,m)

/-- The tokens of a text at the beginning of the transcript, or behind other texts. -/
def segmentTokens (tok : Tokenizer) (first : Bool) (text : PyStr) : List Token :=
  (tok.encode ((if first = true then [] else lit " ") ++ text)).getD []

def spineTokens (tok : Tokenizer) : List PyStr → List Token
  | [] => []
  | text :: rest => segmentTokens tok true text ++ rest.flatMap (segmentTokens tok false)

theorem spineTokens_concat (tok : Tokenizer) (texts : List PyStr) (text : PyStr) :
    spineTokens tok (texts ++ [text]) =
      spineTokens tok texts ++ segmentTokens tok texts.isEmpty text := by
  cases texts with
  | nil => simp [spineTokens]
  | cons first rest => simp [spineTokens]

/-- The texts of the finals, in the order of the segments. -/
def finals {s : SessionId} (segments : List (Segment s)) : List PyStr :=
  segments.filterMap (fun g => g.final.map STTEvent.text)

/-- The greatest revision of the last segment, unless that is finished. -/
def unfinished {s : SessionId} (segments : List (Segment s)) : Option STTEvent :=
  match segments.getLast? with
  | none => none
  | some g => if g.final = none then g.greatest else none

/-- The transcript with the given committed texts and tail. -/
structure ReadsAs (tok : Tokenizer) (texts : List PyStr) (tail : Option STTEvent)
    (session : ConversationSession) : Prop where
  committedText : session.committedText = texts
  committedTokens : session.committedTokens = spineTokens tok texts
  tentativeText : session.tentativeText = tail.elim [] STTEvent.text
  tentativeTokens : session.tentativeTokens =
    tail.elim [] (fun e => segmentTokens tok texts.isEmpty e.text)

namespace ReadsAs
variable {tok : Tokenizer} {texts : List PyStr} {tail : Option STTEvent}
  {session : ConversationSession} {event : STTEvent} {newTail : List Token}

theorem tokens_eq (h : ReadsAs tok texts tail session)
    (hencode : tok.encode (session.tailText event) = some newTail) :
    newTail = segmentTokens tok texts.isEmpty event.text := by
  have htext : session.tailText event =
      (if texts.isEmpty = true then [] else lit " ") ++ event.text := by
    unfold tailText
    rw [h.committedText]
    cases texts <;> rfl
  rw [segmentTokens,← htext,hencode,Option.getD_some]

theorem revise_final (h : ReadsAs tok texts tail session) (htype : event.type = .commitFinal)
    (hencode : tok.encode (session.tailText event) = some newTail) :
    ReadsAs tok (texts ++ [event.text]) none (session.revise event newTail) := by
  rw [revise,if_pos htype]
  refine ⟨?_,?_,rfl,rfl⟩
  · show session.committedText ++ [event.text] = texts ++ [event.text]
    rw [h.committedText]
  · show session.committedTokens ++ newTail = spineTokens tok (texts ++ [event.text])
    rw [h.committedTokens,spineTokens_concat,h.tokens_eq hencode]

theorem revise_partial (h : ReadsAs tok texts tail session) (htype : event.type ≠ .commitFinal)
    (hencode : tok.encode (session.tailText event) = some newTail) :
    ReadsAs tok texts (some event) (session.revise event newTail) := by
  rw [revise,if_neg htype]
  exact ⟨h.committedText,h.committedTokens,rfl,h.tokens_eq hencode⟩

end ReadsAs

section Delivery
variable {tok : Tokenizer} {event : STTEvent} {p : RevisionAdapter × SessionManager}

theorem deliver_dropped (tok : Tokenizer)
    (h : (p.1.cursor (event.sessionId,event.segmentId)).finalized = true ∨
      (event.revision : ℤ) ≤ (p.1.cursor (event.sessionId,event.segmentId)).revision) :
    ∃ p', deliver tok event p = .ok none p' ∧ p'.2 = p.2 ∧
      ∀ key, p'.1.cursor key = p.1.cursor key := by
  obtain ⟨adapter,hnormalize,hcursors⟩ := normalize_dropped h
  refine ⟨(adapter,p.2),?_,rfl,hcursors⟩
  simp only [deliver,hnormalize]

/-- An event past the cursor whose segment may speak revises the session. -/
theorem deliver_accepted (htotal : tok.Total)
    (hfinal : (p.1.cursor (event.sessionId,event.segmentId)).finalized = false)
    (hlt : (p.1.cursor (event.sessionId,event.segmentId)).revision < event.revision)
    (hclosed : (p.2.current event.sessionId).closed = false) (hkind : ¬isMetadata event.type)
    (hfree : (p.2.current event.sessionId).activeSegmentId = none ∨
      (p.2.current event.sessionId).activeSegmentId = some event.segmentId) :
    ∃ diff p' event' newTail, deliver tok event p = .ok (some diff) p' ∧
      (∀ key, p'.1.cursor key = if key = (event.sessionId,event.segmentId) then
        ⟨event.revision,event.type = .commitFinal⟩ else p.1.cursor key) ∧
      event'.text = event.text ∧ event'.segmentId = event.segmentId ∧
      (event'.type = .commitFinal ↔ event.type = .commitFinal) ∧
      tok.encode ((p.2.raised event).tailText event') = some newTail ∧
      p'.2.current event.sessionId = (p.2.raised event).revise event' newTail := by
  obtain ⟨adapter,hnormalize,hcursors⟩ := normalize_accepted hfinal hlt
  set event' := relabel (p.1.cursor (event.sessionId,event.segmentId)) event
  have hkind' : ¬isMetadata event'.type := by
    rintro (h | h)
    · exact hkind (.inl ((normalizedType_kind _ _ (by decide)).mp h))
    · exact hkind (.inr ((normalizedType_kind _ _ (by decide)).mp h))
  obtain ⟨newTail,hencode⟩ := Option.ne_none_iff_exists'.mp
    (htotal ((p.2.raised event).tailText event'))
  obtain ⟨diff,m,happly,hinstalled⟩ : ∃ diff m, apply tok event' p.2 = .ok diff m ∧
      Installed p.2 m event'.sessionId ((p.2.raised event').revise event' newTail) :=
    apply_transcript hclosed hkind' hfree hencode
  refine ⟨diff,(adapter,m),event',newTail,?_,hcursors,rfl,rfl,
    normalizedType_kind _ _ (by decide),hencode,hinstalled.current_self⟩
  simp only [deliver,hnormalize,happly]

end Delivery

/-- Where the cursor of a segment stands that has not been finished. -/
def lastRevision (latest : Option STTEvent) : ℤ := latest.elim (-1) (fun l => (l.revision : ℤ))

/-- The first `finished` segments are final, the next one stands at `latest`, and the others
have not begun. -/
structure Reached {s : SessionId} (tok : Tokenizer) (c : Conversation s) (pre : List STTEvent)
    (finished rest : List (Segment s)) (latest : Option STTEvent)
    (p : RevisionAdapter × SessionManager) : Prop where
  split : c.segments = finished ++ rest
  done : ∀ g ∈ finished, g.final ≠ none
  finalized : ∀ g ∈ finished, (p.1.cursor (s,g.segmentId)).finalized = true
  waiting : ∀ g ∈ rest, ∀ f ∈ g.events, f.type = .commitFinal → f ∉ pre
  cursor : ∀ g ∈ rest.head?, p.1.cursor (s,g.segmentId) =
    ⟨lastRevision latest,false⟩
  ahead : ∀ g ∈ rest.tail, p.1.cursor (s,g.segmentId) = .fresh
  untouched : ∀ g ∈ rest.tail, ∀ e ∈ g.events, e ∉ pre
  latest_mem : ∀ l ∈ latest, l.type ≠ .commitFinal ∧ ∃ g ∈ rest.head?, l ∈ g.events
  latest_max : ∀ g ∈ rest.head?, ∀ e ∈ g.events, e ∈ pre → ∃ l ∈ latest, e.revision ≤ l.revision
  opened : (p.2.current s).closed = false
  active : (p.2.current s).activeSegmentId = latest.map STTEvent.segmentId
  reads : ReadsAs tok (finals finished) latest (p.2.current s)

/-- No segment begins out of turn: an event that may be delivered is one of a finished segment
or of the next one. -/
theorem Reached.in_turn {s : SessionId} {tok : Tokenizer} {c : Conversation s}
    {pre : List STTEvent} {finished rest : List (Segment s)} {latest : Option STTEvent}
    {p : RevisionAdapter × SessionManager} (h : Reached tok c pre finished rest latest p)
    {g : Segment s} (hg : g ∈ c.segments)
    (hturn : ∀ i g₀, c.segments[i]? = some g₀ → c.segments[i + 1]? = some g →
      ∃ f ∈ pre, f ∈ g₀.events ∧ f.type = .commitFinal) :
    g ∈ finished ∨ rest.head? = some g := by
  rw [h.split] at hg
  rcases List.mem_append.mp hg with hg | hg
  · exact .inl hg
  · cases hrest : rest with
    | nil =>
      rw [hrest] at hg
      cases hg
    | cons first later =>
      rw [hrest] at hg
      rcases List.mem_cons.mp hg with rfl | hlater
      · exact .inr rfl
      · -- the segment before this one has not been finished
        exfalso
        obtain ⟨j,hj⟩ := List.mem_iff_getElem?.mp hlater
        have hlt : j < (first :: later).length :=
          Nat.lt_succ_of_lt (List.getElem?_eq_some_iff.mp hj).1
        have hbefore : c.segments[finished.length + j]? = some (first :: later)[j] := by
          rw [h.split,hrest,List.getElem?_append_right (by omega),Nat.add_sub_cancel_left,
            List.getElem?_eq_getElem hlt]
        have hthis : c.segments[finished.length + j + 1]? = some g := by
          rw [h.split,hrest,List.getElem?_append_right (by omega),
            show finished.length + j + 1 - finished.length = j + 1 by omega,List.getElem?_cons_succ,hj]
        obtain ⟨f,hf,hfg,hfinal⟩ := hturn _ _ hbefore hthis
        exact h.waiting _ (hrest ▸ List.getElem_mem hlt) f hfg hfinal hf

theorem Conversation.segment_unique {s : SessionId} (c : Conversation s) {g g' : Segment s}
    (hg : g ∈ c.segments) (hg' : g' ∈ c.segments) {e : STTEvent} (he : e ∈ g.events)
    (he' : e ∈ g'.events) : g = g' := by
  refine List.inj_on_of_nodup_map c.distinct hg hg' ?_
  rw [← (g.own e he).2.1,(g'.own e he').2.1]

namespace Reached
variable {s : SessionId} {tok : Tokenizer} {c : Conversation s} {pre : List STTEvent}
  {finished rest : List (Segment s)} {latest : Option STTEvent}
  {p p' : RevisionAdapter × SessionManager} {g : Segment s} {e : STTEvent}

theorem nodup (h : Reached tok c pre finished rest latest p) : (finished ++ rest).Nodup :=
  h.split ▸ List.Nodup.of_map _ c.distinct

theorem mem (h : Reached tok c pre finished rest latest p) :
    g ∈ c.segments ↔ g ∈ finished ∨ g ∈ rest := by
  rw [h.split,List.mem_append]

/-- The current segment shares neither its key nor its events with another one. -/
theorem others (h : Reached tok c pre finished rest latest p) (hg : rest.head? = some g)
    (he : e ∈ g.events) {g' : Segment s} (hg' : g' ∈ finished ∨ g' ∈ rest.tail) :
    (s,g'.segmentId) ≠ (e.sessionId,e.segmentId) ∧ e ∉ g'.events := by
  have hmem : g' ∈ finished ∨ g' ∈ rest := hg'.imp id List.mem_of_mem_tail
  have hne : g' ≠ g := by
    rintro rfl
    obtain ⟨later,rfl⟩ := List.head?_eq_some_iff.mp hg
    obtain ⟨-,hrest,hdisjoint⟩ := List.nodup_append.mp h.nodup
    rcases hg' with hg' | hg'
    · exact hdisjoint g' hg' g' List.mem_cons_self rfl
    · exact (List.nodup_cons.mp hrest).1 hg'
  refine ⟨?_,?_⟩
  · intro hkey
    refine hne (List.inj_on_of_nodup_map c.distinct (h.mem.mpr hmem)
      (h.mem.mpr (.inr (List.mem_of_mem_head? hg))) ?_)
    rw [(Prod.mk.inj hkey).2,(g.own e he).2.1]
  · exact fun he' => hne (c.segment_unique (h.mem.mpr hmem)
      (h.mem.mpr (.inr (List.mem_of_mem_head? hg))) he' he)

/-- A dropped event leaves everything where it was. -/
theorem dropped (h : Reached tok c pre finished rest latest p) (hsession : p'.2 = p.2)
    (hcursors : ∀ key, p'.1.cursor key = p.1.cursor key)
    (hnotFinal : ∀ g ∈ rest, e ∈ g.events → e.type ≠ .commitFinal)
    (huntouched : ∀ g ∈ rest.tail, e ∉ g.events)
    (hmax : ∀ g ∈ rest.head?, e ∈ g.events → ∃ l ∈ latest, e.revision ≤ l.revision) :
    Reached tok c (pre ++ [e]) finished rest latest p' where
  split := h.split
  done := h.done
  finalized g hg := by
    rw [hcursors]
    exact h.finalized g hg
  waiting g hg f hf hfinal hmem := by
    rcases List.mem_append.mp hmem with hmem | hmem
    · exact h.waiting g hg f hf hfinal hmem
    · obtain rfl := List.mem_singleton.mp hmem
      exact hnotFinal g hg hf hfinal
  cursor g hg := by
    rw [hcursors]
    exact h.cursor g hg
  ahead g hg := by
    rw [hcursors]
    exact h.ahead g hg
  untouched g hg f hf hmem := by
    rcases List.mem_append.mp hmem with hmem | hmem
    · exact h.untouched g hg f hf hmem
    · obtain rfl := List.mem_singleton.mp hmem
      exact huntouched g hg hf
  latest_mem := h.latest_mem
  latest_max g hg f hf hmem := by
    rcases List.mem_append.mp hmem with hmem | hmem
    · exact h.latest_max g hg f hf hmem
    · obtain rfl := List.mem_singleton.mp hmem
      exact hmax g hg hf
  opened := by
    rw [hsession]
    exact h.opened
  active := by
    rw [hsession]
    exact h.active
  reads := by
    rw [hsession]
    exact h.reads

/-- A late event of a finished segment is dropped. -/
theorem late (h : Reached tok c pre finished rest latest p) (hg : g ∈ finished) (he : e ∈ g.events) :
    ∃ p', deliver tok e p = .ok none p' ∧ Reached tok c (pre ++ [e]) finished rest latest p' := by
  obtain ⟨hs,hseg,-⟩ := g.own e he
  have hdone : (p.1.cursor (e.sessionId,e.segmentId)).finalized = true := by
    rw [hs,hseg]
    exact h.finalized g hg
  obtain ⟨p',hdeliver,hsession,hcursors⟩ := deliver_dropped tok (.inl hdone)
  have hother : ∀ g' ∈ rest, e ∉ g'.events := by
    intro g' hg' he'
    obtain rfl := c.segment_unique (h.mem.mpr (.inl hg)) (h.mem.mpr (.inr hg')) he he'
    exact (List.nodup_append.mp h.nodup).2.2 g hg g hg' rfl
  refine ⟨p',hdeliver,h.dropped hsession hcursors ?_ ?_ ?_⟩
  · exact fun g' hg' he' => absurd he' (hother g' hg')
  · exact fun g' hg' => hother g' (List.mem_of_mem_tail hg')
  · exact fun g' hg' he' => absurd he' (hother g' (List.mem_of_mem_head? hg'))

/-- A revision that the current segment has passed is dropped. -/
theorem stale (h : Reached tok c pre finished rest latest p) (hg : rest.head? = some g)
    (he : e ∈ g.events) (hrev : (e.revision : ℤ) ≤ lastRevision latest) :
    ∃ p', deliver tok e p = .ok none p' ∧ Reached tok c (pre ++ [e]) finished rest latest p' := by
  obtain ⟨hs,hseg,-⟩ := g.own e he
  have hpassed : (e.revision : ℤ) ≤ (p.1.cursor (e.sessionId,e.segmentId)).revision := by
    rw [hs,hseg,h.cursor g hg]
    exact hrev
  obtain ⟨p',hdeliver,hsession,hcursors⟩ := deliver_dropped tok (.inr hpassed)
  obtain ⟨l,hlatest,hle⟩ : ∃ l ∈ latest, e.revision ≤ l.revision := by
    cases latest with
    | none =>
      have hneg : (e.revision : ℤ) ≤ -1 := hrev
      omega
    | some l => exact ⟨l,rfl,Int.ofNat_le.mp hrev⟩
  obtain ⟨hnotFinal,g',hg',hl⟩ := h.latest_mem l hlatest
  obtain rfl : g' = g := Option.some.inj (hg'.symm.trans hg)
  refine ⟨p',hdeliver,h.dropped hsession hcursors ?_ ?_ ?_⟩
  · intro g'' hg'' he'' hfinal
    have hge := g'.final_greatest e he hfinal l hl
    rw [Segment.eq_of_revision he hl (le_antisymm hle hge)] at hfinal
    exact hnotFinal hfinal
  · exact fun g'' hg'' => (h.others hg he (.inr hg'')).2
  · exact fun _ _ _ => ⟨l,hlatest,hle⟩

/-- A newer partial of the current segment becomes its latest revision. -/
theorem revised (h : Reached tok c pre finished rest latest p) (hg : rest.head? = some g)
    (he : e ∈ g.events) (htype : e.type ≠ .commitFinal) (hrev : lastRevision latest < e.revision)
    (hcursors : ∀ key, p'.1.cursor key = if key = (e.sessionId,e.segmentId) then
      ⟨e.revision,e.type = .commitFinal⟩ else p.1.cursor key)
    (hopened : (p'.2.current s).closed = false)
    (hactive : (p'.2.current s).activeSegmentId = some e.segmentId)
    (hreads : ReadsAs tok (finals finished) (some e) (p'.2.current s)) :
    Reached tok c (pre ++ [e]) finished rest (some e) p' where
  split := h.split
  done := h.done
  finalized g' hg' := by
    rw [hcursors,if_neg (h.others hg he (.inl hg')).1]
    exact h.finalized g' hg'
  waiting g' hg' f hf hfinal hmem := by
    rcases List.mem_append.mp hmem with hmem | hmem
    · exact h.waiting g' hg' f hf hfinal hmem
    · exact htype (List.mem_singleton.mp hmem ▸ hfinal)
  cursor g' hg' := by
    obtain rfl : g' = g := Option.some.inj (hg'.symm.trans hg)
    obtain ⟨hs,hseg,-⟩ := g'.own e he
    rw [hcursors,if_pos (by rw [hs,hseg])]
    simp [lastRevision,htype]
  ahead g' hg' := by
    rw [hcursors,if_neg (h.others hg he (.inr hg')).1]
    exact h.ahead g' hg'
  untouched g' hg' f hf hmem := by
    rcases List.mem_append.mp hmem with hmem | hmem
    · exact h.untouched g' hg' f hf hmem
    · obtain rfl := List.mem_singleton.mp hmem
      exact (h.others hg he (.inr hg')).2 hf
  latest_mem l hl := by
    obtain rfl := Option.some.inj hl
    exact ⟨htype,g,hg,he⟩
  latest_max g' hg' f hf hmem := by
    refine ⟨e,rfl,?_⟩
    rcases List.mem_append.mp hmem with hmem | hmem
    · obtain ⟨l,hl,hle⟩ := h.latest_max g' hg' f hf hmem
      obtain rfl : latest = some l := hl
      have hlt : (l.revision : ℤ) < e.revision := hrev
      omega
    · rw [List.mem_singleton.mp hmem]
  opened := hopened
  active := hactive
  reads := hreads

/-- The final of the current segment finishes it. -/
theorem committed (h : Reached tok c pre finished rest latest p) (hg : rest.head? = some g)
    (he : e ∈ g.events) (htype : e.type = .commitFinal)
    (hcursors : ∀ key, p'.1.cursor key = if key = (e.sessionId,e.segmentId) then
      ⟨e.revision,e.type = .commitFinal⟩ else p.1.cursor key)
    (hopened : (p'.2.current s).closed = false)
    (hactive : (p'.2.current s).activeSegmentId = none)
    (hreads : ReadsAs tok (finals finished ++ [e.text]) none (p'.2.current s)) :
    Reached tok c (pre ++ [e]) (finished ++ [g]) rest.tail none p' where
  split := by
    obtain ⟨later,rfl⟩ := List.head?_eq_some_iff.mp hg
    rw [h.split,List.append_assoc]
    rfl
  done g' hg' := by
    rcases List.mem_append.mp hg' with hg' | hg'
    · exact h.done g' hg'
    · obtain rfl := List.mem_singleton.mp hg'
      rw [Segment.final_eq_some he htype]
      simp
  finalized g' hg' := by
    rcases List.mem_append.mp hg' with hg' | hg'
    · rw [hcursors,if_neg (h.others hg he (.inl hg')).1]
      exact h.finalized g' hg'
    · obtain rfl := List.mem_singleton.mp hg'
      obtain ⟨hs,hseg,-⟩ := g'.own e he
      rw [hcursors,if_pos (by rw [hs,hseg])]
      simp [htype]
  waiting g' hg' f hf hfinal hmem := by
    rcases List.mem_append.mp hmem with hmem | hmem
    · exact h.waiting g' (List.mem_of_mem_tail hg') f hf hfinal hmem
    · obtain rfl := List.mem_singleton.mp hmem
      exact (h.others hg he (.inr hg')).2 hf
  cursor g' hg' := by
    have hmem := List.mem_of_mem_head? hg'
    rw [hcursors,if_neg (h.others hg he (.inr hmem)).1]
    exact h.ahead g' hmem
  ahead g' hg' := by
    have hmem := List.mem_of_mem_tail hg'
    rw [hcursors,if_neg (h.others hg he (.inr hmem)).1]
    exact h.ahead g' hmem
  untouched g' hg' f hf hmem := by
    have hlater := List.mem_of_mem_tail hg'
    rcases List.mem_append.mp hmem with hmem | hmem
    · exact h.untouched g' hlater f hf hmem
    · obtain rfl := List.mem_singleton.mp hmem
      exact (h.others hg he (.inr hlater)).2 hf
  latest_mem l hl := by cases hl
  latest_max g' hg' f hf hmem := by
    have hlater := List.mem_of_mem_head? hg'
    rcases List.mem_append.mp hmem with hmem | hmem
    · exact absurd hmem (h.untouched g' hlater f hf)
    · obtain rfl := List.mem_singleton.mp hmem
      exact absurd hf (h.others hg he (.inr hlater)).2
  opened := hopened
  active := hactive
  reads := by
    have htexts : finals (finished ++ [g]) = finals finished ++ [e.text] := by
      simp [finals,Segment.final_eq_some he htype]
    rwa [htexts]

/-- A newer event of the current segment is taken. -/
theorem taken (htotal : tok.Total) (h : Reached tok c pre finished rest latest p)
    (hg : rest.head? = some g) (he : e ∈ g.events) (hrev : lastRevision latest < e.revision) :
    ∃ diff p' finished' rest' latest', deliver tok e p = .ok (some diff) p' ∧
      Reached tok c (pre ++ [e]) finished' rest' latest' p' := by
  obtain ⟨hs,hseg,hkind⟩ := g.own e he
  have hcursor : p.1.cursor (e.sessionId,e.segmentId) = ⟨lastRevision latest,false⟩ := by
    rw [hs,hseg]
    exact h.cursor g hg
  have hfree : (p.2.current e.sessionId).activeSegmentId = none ∨
      (p.2.current e.sessionId).activeSegmentId = some e.segmentId := by
    rw [hs,h.active]
    cases hlatest : latest with
    | none => exact .inl rfl
    | some l =>
      obtain ⟨-,g',hg',hl⟩ := h.latest_mem l hlatest
      obtain rfl : g' = g := Option.some.inj (hg'.symm.trans hg)
      exact .inr (by rw [Option.map_some,(g'.own l hl).2.1,hseg])
  obtain ⟨diff,p',e',newTail,hdeliver,hcursors,htext,hsegment,htype,hencode,hcurrent⟩ :=
    deliver_accepted htotal (show (p.1.cursor (e.sessionId,e.segmentId)).finalized = false by
      rw [hcursor]) (by rw [hcursor]; exact hrev) (by rw [hs]; exact h.opened) hkind hfree
  have hreads : ReadsAs tok (finals finished) latest (p.2.raised e) := by
    have hbefore : ReadsAs tok (finals finished) latest (p.2.current e.sessionId) := by
      rw [show p.2.current e.sessionId = p.2.current s by rw [hs]]
      exact h.reads
    exact ⟨hbefore.1,hbefore.2,hbefore.3,hbefore.4⟩
  have hclosed : (p.2.raised e).closed = false := by
    have hbefore := h.opened
    rwa [← hs] at hbefore
  rw [hs] at hcurrent
  by_cases hfinal : e.type = .commitFinal
  · refine ⟨diff,p',finished ++ [g],rest.tail,none,hdeliver,
      h.committed hg he hfinal hcursors ?_ ?_ ?_⟩
    · rw [hcurrent,revise,if_pos (htype.mpr hfinal)]
      exact hclosed
    · rw [hcurrent,revise,if_pos (htype.mpr hfinal)]
    · rw [hcurrent,← htext]
      exact hreads.revise_final (htype.mpr hfinal) hencode
  · have hfinal' := mt htype.mp hfinal
    refine ⟨diff,p',finished,rest,some e,hdeliver,
      h.revised hg he hfinal hrev hcursors ?_ ?_ ?_⟩
    · rw [hcurrent,revise,if_neg hfinal']
      exact hclosed
    · rw [hcurrent,revise,if_neg hfinal',← hsegment]
    · rw [hcurrent]
      have hafter := hreads.revise_partial hfinal' hencode
      refine ⟨hafter.1,hafter.2,?_,?_⟩
      · rw [hafter.tentativeText,Option.elim_some,Option.elim_some,htext]
      · rw [hafter.tentativeTokens,Option.elim_some,Option.elim_some,htext]

/-- Any event that may be delivered now is dropped or taken, and nothing raises. -/
theorem step (htotal : tok.Total) (h : Reached tok c pre finished rest latest p)
    (hg : g ∈ c.segments) (he : e ∈ g.events)
    (hturn : ∀ i g₀, c.segments[i]? = some g₀ → c.segments[i + 1]? = some g →
      ∃ f ∈ pre, f ∈ g₀.events ∧ f.type = .commitFinal) :
    ∃ diff p' finished' rest' latest', deliver tok e p = .ok diff p' ∧
      Reached tok c (pre ++ [e]) finished' rest' latest' p' := by
  rcases h.in_turn hg hturn with hfinished | hhead
  · obtain ⟨p',hdeliver,hreached⟩ := h.late hfinished he
    exact ⟨none,p',finished,rest,latest,hdeliver,hreached⟩
  by_cases hrev : (e.revision : ℤ) ≤ lastRevision latest
  · obtain ⟨p',hdeliver,hreached⟩ := h.stale hhead he hrev
    exact ⟨none,p',finished,rest,latest,hdeliver,hreached⟩
  · obtain ⟨diff,p',finished',rest',latest',hdeliver,hreached⟩ :=
      h.taken htotal hhead he (not_le.mp hrev)
    exact ⟨some diff,p',finished',rest',latest',hdeliver,hreached⟩

theorem run (htotal : tok.Total) {deliveries post : List STTEvent} (hd : Delivers c deliveries)
    (hsplit : deliveries = pre ++ post) (h : Reached tok c pre finished rest latest p) :
    (∀ reply ∈ replies (deliver tok) post p, ∃ diff, reply = .ok diff) ∧
    ∃ finished' rest' latest',
      Reached tok c deliveries finished' rest' latest' (runAll (deliver tok) post p) := by
  induction post generalizing pre finished rest latest p with
  | nil =>
    rw [List.append_nil] at hsplit
    exact ⟨fun _ hreply => (by cases hreply),finished,rest,latest,hsplit ▸ h⟩
  | cons e post ih =>
    obtain ⟨g,hg,he⟩ := hd.known e (by rw [hsplit]; simp)
    obtain ⟨diff,p',finished',rest',latest',hdeliver,hreached⟩ := h.step htotal hg he
      (fun i g₀ hbefore hthis => hd.in_turn i g₀ g hbefore hthis pre e post hsplit he)
    obtain ⟨hreplies,hend⟩ := ih (by rw [hsplit]; simp) hreached
    rw [runAll_cons,after_ok hdeliver]
    refine ⟨fun reply hreply => ?_,hend⟩
    rw [replies,outcome_ok hdeliver,after_ok hdeliver] at hreply
    rcases List.mem_cons.mp hreply with rfl | hreply
    · exact ⟨diff,rfl⟩
    · exact hreplies reply hreply

section Delivered
variable {deliveries : List STTEvent}

/-- Once everything is delivered, a segment without its final has none. -/
theorem final_none (hd : Delivers c deliveries) (h : Reached tok c deliveries finished rest latest p)
    (hg : g ∈ rest) : g.final = none := by
  refine List.find?_eq_none.mpr (fun f hf hfinal => ?_)
  exact h.waiting g hg f hf (by simpa using hfinal) (hd.all g (h.mem.mpr (.inr hg)) f hf)

/-- Only the last segment may lack its final. -/
theorem rest_eq (hd : Delivers c deliveries) (h : Reached tok c deliveries finished rest latest p)
    (hg : rest.head? = some g) : rest = [g] := by
  obtain ⟨later,rfl⟩ := List.head?_eq_some_iff.mp hg
  have hlater : later = [] := by
    by_contra hne
    have hmem : g ∈ c.segments.dropLast := by
      rw [h.split,List.dropLast_append_of_ne_nil (List.cons_ne_nil _ _),
        List.dropLast_cons_of_ne_nil hne]
      simp
    obtain ⟨f,hf,hfinal⟩ := c.finished g hmem
    have hnone := h.final_none hd List.mem_cons_self
    rw [Segment.final_eq_some hf hfinal] at hnone
    cases hnone
  rw [hlater]

/-- Once everything is delivered, the current segment stands at its greatest revision. -/
theorem greatest_eq (hd : Delivers c deliveries) (h : Reached tok c deliveries finished rest latest p)
    (hg : rest.head? = some g) : g.greatest = latest := by
  have hall : ∀ e ∈ g.events, ∃ l ∈ latest, e.revision ≤ l.revision := fun e he =>
    h.latest_max g hg e he (hd.all g (h.mem.mpr (.inr (List.mem_of_mem_head? hg))) e he)
  cases hlatest : latest with
  | none =>
    have hnil : g.events = [] := by
      refine List.eq_nil_iff_forall_not_mem.mpr (fun e he => ?_)
      obtain ⟨l,hl,-⟩ := hall e he
      rw [hlatest] at hl
      cases hl
    rw [Segment.greatest,hnil,List.argmax_nil]
  | some l =>
    obtain ⟨-,g',hg',hl⟩ := h.latest_mem l hlatest
    obtain rfl : g' = g := Option.some.inj (hg'.symm.trans hg)
    refine Segment.greatest_eq_some hl (fun e he => ?_)
    obtain ⟨l',hl',hle⟩ := hall e he
    obtain rfl : l' = l := Option.some.inj (hl'.symm.trans hlatest)
    exact hle

theorem finals_eq (hd : Delivers c deliveries) (h : Reached tok c deliveries finished rest latest p) :
    finals c.segments = finals finished := by
  have hrest : finals rest = [] :=
    List.filterMap_eq_nil_iff.mpr (fun g hg => by rw [h.final_none hd hg]; rfl)
  rw [h.split,finals,List.filterMap_append]
  show finals finished ++ finals rest = finals finished
  rw [hrest,List.append_nil]

theorem unfinished_eq (hd : Delivers c deliveries)
    (h : Reached tok c deliveries finished rest latest p) : unfinished c.segments = latest := by
  cases hhead : rest.head? with
  | none =>
    have hrest : rest = [] := List.head?_eq_none_iff.mp hhead
    have hlatest : latest = none := by
      refine Option.eq_none_iff_forall_not_mem.mpr (fun l hl => ?_)
      obtain ⟨-,g,hg,-⟩ := h.latest_mem l hl
      rw [hhead] at hg
      cases hg
    rw [hlatest,unfinished,h.split,hrest,List.append_nil]
    split
    · rfl
    · next g hlast =>
      rw [if_neg (h.done g (List.mem_of_getLast? hlast))]
  | some g =>
    have hlast : c.segments.getLast? = some g := by
      rw [h.split,h.rest_eq hd hhead,List.getLast?_concat]
    simp only [unfinished,hlast]
    rw [if_pos (h.final_none hd (List.mem_of_mem_head? hhead)),h.greatest_eq hd hhead]

end Delivered

end Reached

theorem reached_nil {s : SessionId} (tok : Tokenizer) (c : Conversation s)
    {p : RevisionAdapter × SessionManager} (hcursors : ∀ segmentId, p.1.cursor (s,segmentId) = .fresh)
    (hsession : p.2.sessions.get? s = none) : Reached tok c [] [] c.segments none p := by
  have hcurrent : p.2.current s = .fresh s := by
    rw [current,hsession,Option.getD_none]
  refine ⟨rfl,by simp,by simp,by simp,fun g _ => hcursors _,fun g _ => hcursors _,by simp,by simp,
    by simp,?_,?_,?_⟩
  · rw [hcurrent]
    rfl
  · rw [hcurrent]
    rfl
  · rw [hcurrent]
    exact ⟨rfl,rfl,rfl,rfl⟩

/-- A session that has had no event comes to the same transcript by every delivery of the
conversation: the texts of the finals in order, the greatest revision of an unfinished last
segment, and the tokens of these texts. No call raises. -/
theorem deliveries_converge {s : SessionId} {tok : Tokenizer} (htotal : tok.Total)
    (c : Conversation s) {deliveries : List STTEvent} (hd : Delivers c deliveries)
    {p : RevisionAdapter × SessionManager} (hcursors : ∀ segmentId, p.1.cursor (s,segmentId) = .fresh)
    (hsession : p.2.sessions.get? s = none) :
    (∀ reply ∈ replies (deliver tok) deliveries p, ∃ diff, reply = .ok diff) ∧
    ReadsAs tok (finals c.segments) (unfinished c.segments)
      ((runAll (deliver tok) deliveries p).2.current s) := by
  obtain ⟨hreplies,finished,rest,latest,hreached⟩ :=
    (reached_nil tok c hcursors hsession).run htotal hd rfl
  refine ⟨hreplies,?_⟩
  rw [hreached.finals_eq hd,hreached.unfinished_eq hd]
  exact hreached.reads

def firstPartial : STTEvent := heard "a" 0 .appendPartial "h" (by decide) (by decide)
def firstFinal : STTEvent := heard "a" 1 .commitFinal "hi" (by decide) (by decide)
def secondPartial : STTEvent := heard "b" 0 .appendPartial "yo" (by decide) (by decide)

def twoSegments : Conversation (lit "s") where
  segments := [⟨lit "a",[firstPartial,firstFinal],by decide,by decide,by decide⟩,
    ⟨lit "b",[secondPartial],by decide,by decide,by decide⟩]
  distinct := by decide
  finished g hg := by
    obtain rfl := List.mem_singleton.mp hg
    exact ⟨firstFinal,by decide,rfl⟩

/-- The final comes first, its partial late, and the second segment twice. -/
theorem deliveries_converge_twoSegments :
    let tok : Tokenizer := ⟨fun text => some (text.map (fun c => (c.val : ℤ)))⟩
    ReadsAs tok [lit "hi"] (some secondPartial)
      ((runAll (deliver tok) [firstFinal,secondPartial,firstPartial,secondPartial]
        (RevisionAdapter.init,SessionManager.init 0)).2.current (lit "s")) := by
  intro tok
  have hd : Delivers twoSegments [firstFinal,secondPartial,firstPartial,secondPartial] := by
    refine ⟨by decide,by decide,?_⟩
    intro i g g' hg hg' pre e post hsplit he
    cases i with
    | succ i => cases i <;> cases hg'
    | zero =>
      cases hg
      cases hg'
      obtain rfl := List.mem_singleton.mp he
      cases pre with
      | nil => exact absurd (List.cons.inj hsplit).1 (by decide)
      | cons first pre =>
        obtain rfl := (List.cons.inj hsplit).1
        exact ⟨firstFinal,List.mem_cons_self,by decide,rfl⟩
  exact (deliveries_converge (fun text h => by cases h) twoSegments hd (fun _ => rfl) rfl).2

end CueBee.Transcript
