import CueBee.Runtime.Engine
import CueBee.Transcript.TranscriptProgress

/-! # The stream of session updates

What an engine that knows revisions can do with the updates it is sent: cut its tokens at
`replace_from` and append the replacement. `Streams` relates the tokens that result to the
resident tokens of the cache, session by session.
-/
namespace CueBee.Runtime
open Cache Transcript SessionManager ConversationSession

/-- The engine's tokens of the session after the update. -/
def SessionRevisionUpdate.splice (tokens : List Token) (u : SessionRevisionUpdate) : List Token :=
  tokens.take u.replaceFrom ++ u.replacementTokenIds

/-- The engine's tokens after the updates of one session. -/
def engineTokens (us : List SessionRevisionUpdate) : List Token :=
  us.foldl SessionRevisionUpdate.splice []

def updatesOf (s : SessionId) (us : List SessionRevisionUpdate) : List SessionRevisionUpdate :=
  us.filter (fun u => u.sessionId = s)

/-- `u` may follow the updates `us` of its session. -/
structure Continues (us : List SessionRevisionUpdate) (u : SessionRevisionUpdate) : Prop where
  gapless : u.replaceFrom ≤ (engineTokens us).length
  frontier : u.commitFrontier ≤ (engineTokens (us ++ [u])).length
  version : ∀ v ∈ us, v.version < u.version
  monotone : ∀ v ∈ us, v.commitFrontier ≤ u.commitFrontier
  floor : ∀ v ∈ us, v.commitFrontier ≤ u.replaceFrom

/-- Every update of the list continues those before it. -/
def Stream (us : List SessionRevisionUpdate) : Prop :=
  ∀ before u rest, us = before ++ u :: rest → Continues before u

section Lists
variable {us : List SessionRevisionUpdate} {u : SessionRevisionUpdate} {s : SessionId}

theorem engineTokens_concat (us : List SessionRevisionUpdate) (u : SessionRevisionUpdate) :
    engineTokens (us ++ [u]) = u.splice (engineTokens us) := by
  simp [engineTokens]

theorem stream_nil : Stream [] := by
  intro before u rest h
  cases before <;> cases h

theorem Stream.concat (h : Stream us) (hu : Continues us u) : Stream (us ++ [u]) := by
  intro before v rest hsplit
  rcases List.eq_nil_or_concat' rest with rfl | ⟨init,last,rfl⟩
  · obtain ⟨hbefore,hv⟩ := List.append_inj' hsplit rfl
    cases hv
    exact hbefore ▸ hu
  · have hsplit' : us ++ [u] = (before ++ v :: init) ++ [last] := by
      rw [hsplit]
      simp
    exact h before v init (List.append_inj' hsplit' rfl).1

theorem updatesOf_concat_self (hu : u.sessionId = s) :
    updatesOf s (us ++ [u]) = updatesOf s us ++ [u] := by
  simp [updatesOf,hu]

theorem updatesOf_concat_ne (hu : u.sessionId ≠ s) : updatesOf s (us ++ [u]) = updatesOf s us := by
  simp [updatesOf,hu]

end Lists

/-- The resident tokens of the cache are a prefix of what the engine has, and no update is
ahead of its session. -/
structure Streams (resident : SessionId → List Token) (m : SessionManager)
    (us : List SessionRevisionUpdate) : Prop where
  stream : ∀ s, Stream (updatesOf s us)
  lagging : ∀ s, resident s <+: engineTokens (updatesOf s us)
  version : ∀ s, ∀ u ∈ updatesOf s us, u.version ≤ (m.current s).version
  frontier : ∀ s, ∀ u ∈ updatesOf s us, u.commitFrontier ≤ (m.current s).commitFrontier
  kept : ∀ s, ∀ u ∈ updatesOf s us, u.commitFrontier ≤ (resident s).length

namespace Streams
variable {resident after : SessionId → List Token} {m m' : SessionManager}
  {us : List SessionRevisionUpdate} {s : SessionId}

theorem init (m : SessionManager) : Streams (fun _ => []) m [] where
  stream _ := stream_nil
  lagging _ := List.prefix_rfl
  version s u hu := by cases hu
  frontier s u hu := by cases hu
  kept s u hu := by cases hu

/-- Sessions move on. -/
theorem progress (h : Streams resident m us)
    (hm : ∀ t, Advances (m.current t) (m'.current t)) : Streams resident m' us where
  stream := h.stream
  lagging := h.lagging
  version t u hu := (h.version t u hu).trans (hm t).version
  frontier t u hu := (h.frontier t u hu).trans (hm t).frontier
  kept := h.kept

/-- The cache is cut behind every commit frontier that the engine was told. -/
theorem cut (h : Streams resident m us) {n : ℕ}
    (hn : ∀ u ∈ updatesOf s us, u.commitFrontier ≤ n) (hself : after s = (resident s).take n)
    (hother : ∀ t, t ≠ s → after t = resident t) : Streams after m us where
  stream := h.stream
  lagging t := by
    by_cases ht : t = s
    · subst ht
      rw [hself]
      exact (List.take_prefix n _).trans (h.lagging t)
    · rw [hother t ht]
      exact h.lagging t
  version := h.version
  frontier := h.frontier
  kept t u hu := by
    by_cases ht : t = s
    · subst ht
      rw [hself,List.length_take]
      exact le_min (hn u hu) (h.kept t u hu)
    · rw [hother t ht]
      exact h.kept t u hu

/-- The engine is sent what the cache lacks, and the cache takes it over. -/
theorem sent (h : Streams resident m us) {u : SessionRevisionUpdate} (hs : u.sessionId = s)
    (hstart : u.replaceFrom = (resident s).length)
    (hversion : u.version = (m.current s).version) (hnew : ∀ v ∈ updatesOf s us, v.version < u.version)
    (hfrontier : u.commitFrontier = (m.current s).commitFrontier)
    (hself : after s = resident s ++ u.replacementTokenIds)
    (hcovered : u.commitFrontier ≤ (after s).length)
    (hother : ∀ t, t ≠ s → after t = resident t) :
    Streams after m (us ++ [u]) ∧ after s = engineTokens (updatesOf s (us ++ [u])) := by
  have hlist : updatesOf s (us ++ [u]) = updatesOf s us ++ [u] := updatesOf_concat_self hs
  have hcaught : after s = engineTokens (updatesOf s (us ++ [u])) := by
    rw [hlist,engineTokens_concat,SessionRevisionUpdate.splice,hstart,
      ← List.prefix_iff_eq_take.mp (h.lagging s),hself]
  have hcontinues : Continues (updatesOf s us) u := by
    refine ⟨?_,?_,hnew,fun v hv => ?_,fun v hv => ?_⟩
    · rw [hstart]
      exact (h.lagging s).length_le
    · rw [← hlist,← hcaught]
      exact hcovered
    · rw [hfrontier]
      exact h.frontier s v hv
    · rw [hstart]
      exact h.kept s v hv
  have hsplit : ∀ t, ∀ v ∈ updatesOf t (us ++ [u]), v ∈ updatesOf t us ∨ (v = u ∧ t = s) := by
    intro t v hv
    by_cases ht : t = s
    · subst ht
      rw [hlist] at hv
      rcases List.mem_append.mp hv with hv | hv
      · exact Or.inl hv
      · exact Or.inr ⟨List.mem_singleton.mp hv,rfl⟩
    · rw [updatesOf_concat_ne (by rw [hs]; exact Ne.symm ht)] at hv
      exact Or.inl hv
  refine ⟨⟨fun t => ?_,fun t => ?_,fun t v hv => ?_,fun t v hv => ?_,fun t v hv => ?_⟩,hcaught⟩
  · by_cases ht : t = s
    · subst ht
      rw [hlist]
      exact (h.stream t).concat hcontinues
    · rw [updatesOf_concat_ne (by rw [hs]; exact Ne.symm ht)]
      exact h.stream t
  · by_cases ht : t = s
    · subst ht
      exact hcaught ▸ List.prefix_rfl
    · rw [hother t ht,updatesOf_concat_ne (by rw [hs]; exact Ne.symm ht)]
      exact h.lagging t
  · rcases hsplit t v hv with hv | ⟨rfl,rfl⟩
    · exact h.version t v hv
    · exact hversion.le
  · rcases hsplit t v hv with hv | ⟨rfl,rfl⟩
    · exact h.frontier t v hv
    · exact hfrontier.le
  · rcases hsplit t v hv with hv | ⟨rfl,rfl⟩
    · by_cases ht : t = s
      · subst ht
        rw [hself,List.length_append]
        exact (h.kept t v hv).trans (Nat.le_add_right _ _)
      · rw [hother t ht]
        exact h.kept t v hv
    · exact hcovered

end Streams
end CueBee.Runtime
