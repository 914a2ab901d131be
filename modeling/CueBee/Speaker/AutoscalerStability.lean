import Mathlib.Data.List.Induction
import Mathlib.Tactic.Linarith
import CueBee.Speaker.Autoscaler

/-! # Stability of the autoscaler

Whole histories of observations. The hidden counter is the length of a block of windows of low
load that ends now; the hidden time is that of the last change.
-/
namespace CueBee.Speaker
open Raising

/-- An observation and the scaler that it is made with. -/
structure Observed where
  scaler : SpeakerAutoscaler
  observation : AutoscalerObservation

namespace Observed

def next (x : Observed) : SpeakerAutoscaler := after (SpeakerAutoscaler.observe x.observation) x.scaler

def Changes (x : Observed) : Prop := x.next.currentReplicas ≠ x.scaler.currentReplicas

def Decreases (x : Observed) : Prop := x.next.currentReplicas < x.scaler.currentReplicas

def LowLoad (x : Observed) : Prop := x.scaler.lowLoad x.observation = true

end Observed

namespace SpeakerAutoscaler

def history : List AutoscalerObservation → SpeakerAutoscaler → List Observed
  | [], _ => []
  | observation :: rest, scaler =>
    ⟨scaler,observation⟩ :: history rest (after (observe observation) scaler)

theorem history_append (observations more : List AutoscalerObservation) (scaler : SpeakerAutoscaler) :
    history (observations ++ more) scaler =
      history observations scaler ++ history more (runAll observe observations scaler) := by
  induction observations generalizing scaler with
  | nil => rfl
  | cons observation rest ih =>
    rw [List.cons_append,history,history,ih]
    rfl

/-- Observations one behind the other with low load and the same number of replicas. -/
def Quiet (replicas : ℤ) (block : List Observed) : Prop :=
  ∀ x ∈ block, x.LowLoad ∧ x.scaler.currentReplicas = replicas

/-- How the hidden state follows from the past. -/
structure Follows (settings : AutoscalerSettings) (past : List Observed)
    (scaler : SpeakerAutoscaler) : Prop where
  configured : scaler.settings = settings
  bounds : settings.minimumReplicas ≤ scaler.currentReplicas ∧
    scaler.currentReplicas ≤ settings.maximumReplicas
  lastChange : ∀ x ∈ past, x.Changes →
    ∃ t, scaler.lastScaleAt = some t ∧ x.observation.nowSeconds ≤ t
  block : ∃ earlier block, past = earlier ++ block ∧ block.length = scaler.lowLoadWindows ∧
    Quiet scaler.currentReplicas block

/-- What the past of an autoscaler looks like. -/
structure Stable (settings : AutoscalerSettings) (past : List Observed) : Prop where
  answered : ∀ x ∈ past,
    outcome (observe x.observation) x.scaler = .ok x.next.currentReplicas
  apart : past.Pairwise (fun x y => x.Changes → y.Changes →
    settings.cooldownSeconds ≤ y.observation.nowSeconds - x.observation.nowSeconds)
  decreases : ∀ before x later, past = before ++ x :: later → x.Decreases →
    ∃ earlier block, before ++ [x] = earlier ++ block ∧
      settings.scaleDownWindows ≤ block.length ∧ Quiet x.scaler.currentReplicas block
  enough : ∀ x ∈ past, x.scaler.inCooldown x.observation.nowSeconds = false →
    x.scaler.desired x.observation ≤ x.next.currentReplicas

section Step
variable {settings : AutoscalerSettings} {past : List Observed} {scaler next : SpeakerAutoscaler}
  {observation : AutoscalerObservation}

theorem Quiet.append {replicas : ℤ} {block : List Observed} {x : Observed} (h : Quiet replicas block)
    (hlow : x.LowLoad) (hsame : x.scaler.currentReplicas = replicas) :
    Quiet replicas (block ++ [x]) := by
  intro y hy
  rcases List.mem_append.mp hy with hy | hy
  · exact h y hy
  · rw [List.mem_singleton.mp hy]
    exact ⟨hlow,hsame⟩

/-- An observation that leaves the replicas and the time of the last change. -/
theorem Follows.keep (h : Follows settings past scaler) {x : Observed} {windows : ℕ}
    (hnext : x.next.currentReplicas = x.scaler.currentReplicas)
    (hblock : ∃ earlier block, past ++ [x] = earlier ++ block ∧ block.length = windows ∧
      Quiet scaler.currentReplicas block) :
    Follows settings (past ++ [x]) { scaler with lowLoadWindows := windows } := by
  refine ⟨h.configured,h.bounds,fun y hy hchanges => ?_,hblock⟩
  rcases List.mem_append.mp hy with hy | hy
  · exact h.lastChange y hy hchanges
  · rw [List.mem_singleton.mp hy] at hchanges
    exact absurd hnext hchanges

/-- Outside the cooldown an earlier change is long past. -/
theorem Follows.apart (h : Follows settings past scaler) {now : ℚ}
    (hcooldown : scaler.inCooldown now = false) {x : Observed} (hx : x ∈ past) (hchanges : x.Changes) :
    settings.cooldownSeconds ≤ now - x.observation.nowSeconds := by
  obtain ⟨t,ht,hle⟩ := h.lastChange x hx hchanges
  rw [inCooldown,ht] at hcooldown
  have hlong := not_lt.mp (of_decide_eq_false hcooldown)
  rw [h.configured] at hlong
  linarith

theorem Follows.scale (h : Follows settings past scaler) (haccepted : settings.Accepted)
    (hpositive : 0 ≤ settings.cooldownSeconds)
    (hcooldown : scaler.inCooldown observation.nowSeconds = false) :
    Follows settings (past ++ [⟨scaler,observation⟩]) (scaler.scale observation) := by
  constructor
  · exact h.configured
  · show settings.minimumReplicas ≤ scaler.settings.desired observation ∧
      scaler.settings.desired observation ≤ settings.maximumReplicas
    rw [h.configured]
    exact AutoscalerSettings.desired_bounds haccepted observation
  · intro x hx hchanges
    refine ⟨observation.nowSeconds,rfl,?_⟩
    rcases List.mem_append.mp hx with hx | hx
    · have hlong := h.apart hcooldown hx hchanges
      linarith
    · rw [List.mem_singleton.mp hx]
  · exact ⟨_,[],(List.append_nil _).symm,rfl,fun x hx => nomatch hx⟩

theorem Follows.step (h : Follows settings past scaler) (haccepted : settings.Accepted)
    (hpositive : 0 ≤ settings.cooldownSeconds) (hobserves : Observes observation scaler next)
    (hnext : Observed.next ⟨scaler,observation⟩ = next) :
    Follows settings (past ++ [⟨scaler,observation⟩]) next := by
  have hnone : ∃ earlier block, past ++ [⟨scaler,observation⟩] = earlier ++ block ∧
      block.length = 0 ∧ Quiet scaler.currentReplicas block :=
    ⟨_,[],(List.append_nil _).symm,rfl,fun x hx => nomatch hx⟩
  cases hobserves with
  | waits hmore hcooldown => exact h.keep (by rw [hnext]) hnone
  | grows hmore hcooldown => exact h.scale haccepted hpositive hcooldown
  | shrinks hlow hwindows hcooldown => exact h.scale haccepted hpositive hcooldown
  | counts hlow hwait =>
    obtain ⟨earlier,block,hpast,hlength,hquiet⟩ := h.block
    refine h.keep (by rw [hnext]) ⟨earlier,block ++ [⟨scaler,observation⟩],?_,?_,?_⟩
    · rw [hpast,List.append_assoc]
    · rw [List.length_append,hlength]
      rfl
    · exact hquiet.append hlow rfl
  | forgets henough hlow => exact h.keep (by rw [hnext]) hnone

/-- A block of low load that ends with the observation that shrinks. -/
theorem Follows.shrinking (h : Follows settings past scaler)
    (hlow : scaler.lowLoad observation = true)
    (hwindows : scaler.settings.scaleDownWindows ≤ (scaler.lowLoadWindows + 1 : ℕ)) :
    ∃ earlier block, past ++ [⟨scaler,observation⟩] = earlier ++ block ∧
      settings.scaleDownWindows ≤ block.length ∧ Quiet scaler.currentReplicas block := by
  obtain ⟨earlier,block,hpast,hlength,hquiet⟩ := h.block
  refine ⟨earlier,block ++ [⟨scaler,observation⟩],?_,?_,?_⟩
  · rw [hpast,List.append_assoc]
  · rw [List.length_append,hlength,← h.configured]
    exact hwindows
  · exact hquiet.append hlow rfl

/-- Only the branch that counts the windows shrinks. -/
theorem Observes.lowLoad_of_lt (h : Observes observation scaler next)
    (hless : next.currentReplicas < scaler.currentReplicas) :
    scaler.lowLoad observation = true ∧
      scaler.settings.scaleDownWindows ≤ (scaler.lowLoadWindows + 1 : ℕ) := by
  cases h with
  | shrinks hlow hwindows hcooldown => exact ⟨hlow,hwindows⟩
  | grows hmore hcooldown => exact absurd hmore (not_lt.mpr hless.le)
  | waits hmore hcooldown => exact absurd hless (lt_irrefl _)
  | counts hlow hwait => exact absurd hless (lt_irrefl _)
  | forgets henough hlow => exact absurd hless (lt_irrefl _)

/-- The replicas change only outside the cooldown. -/
theorem Observes.inCooldown_of_ne (h : Observes observation scaler next)
    (hchanges : next.currentReplicas ≠ scaler.currentReplicas) :
    scaler.inCooldown observation.nowSeconds = false := by
  cases h with
  | shrinks hlow hwindows hcooldown => exact hcooldown
  | grows hmore hcooldown => exact hcooldown
  | waits hmore hcooldown => exact absurd rfl hchanges
  | counts hlow hwait => exact absurd rfl hchanges
  | forgets henough hlow => exact absurd rfl hchanges

/-- Outside the cooldown there are enough replicas afterwards. -/
theorem Observes.desired_le (h : Observes observation scaler next)
    (hcooldown : scaler.inCooldown observation.nowSeconds = false) :
    scaler.desired observation ≤ next.currentReplicas := by
  cases h with
  | shrinks hlow hwindows _ => exact le_rfl
  | grows hmore _ => exact le_rfl
  | waits hmore hwaiting =>
    rw [hcooldown] at hwaiting
    cases hwaiting
  | counts hlow hwait => exact (desired_lt_of_lowLoad hlow).le
  | forgets henough hlow => exact henough

theorem Stable.step (hstable : Stable settings past) (h : Follows settings past scaler)
    (hok : observe observation scaler = .ok next.currentReplicas next)
    (hobserves : Observes observation scaler next) :
    Stable settings (past ++ [⟨scaler,observation⟩]) := by
  have hnext : Observed.next ⟨scaler,observation⟩ = next := after_ok hok
  constructor
  · intro x hx
    rcases List.mem_append.mp hx with hx | hx
    · exact hstable.answered x hx
    · rw [List.mem_singleton.mp hx,hnext]
      exact outcome_ok hok
  · refine List.pairwise_append.mpr ⟨hstable.apart,List.pairwise_singleton _ _,?_⟩
    intro x hx y hy hchanges hchanges'
    obtain rfl := List.mem_singleton.mp hy
    rw [Observed.Changes,hnext] at hchanges'
    exact h.apart (hobserves.inCooldown_of_ne hchanges') hx hchanges
  · intro before x later hsplit hdecreases
    rcases List.eq_nil_or_concat later with rfl | ⟨later,y,rfl⟩
    · obtain ⟨rfl,hx⟩ := List.append_inj' hsplit rfl
      obtain rfl := (List.cons.inj hx).1
      rw [Observed.Decreases,hnext] at hdecreases
      obtain ⟨hlow,hwindows⟩ := hobserves.lowLoad_of_lt hdecreases
      exact h.shrinking hlow hwindows
    · rw [List.concat_eq_append,← List.cons_append,← List.append_assoc] at hsplit
      exact hstable.decreases before x later (List.append_inj' hsplit rfl).1 hdecreases
  · intro x hx hcooldown
    rcases List.mem_append.mp hx with hx | hx
    · exact hstable.enough x hx hcooldown
    · obtain rfl := List.mem_singleton.mp hx
      rw [hnext]
      exact hobserves.desired_le hcooldown

end Step

section Runs
variable {settings : AutoscalerSettings} {scaler : SpeakerAutoscaler}

theorem init_follows (h : init settings = .ok scaler) :
    settings.Accepted ∧ Follows settings [] scaler := by
  unfold init at h
  split at h
  · next hbounds =>
    split at h
    · next hutilization =>
      rw [Except.ok.injEq] at h
      subst h
      refine ⟨⟨hbounds.1,hbounds.2,hutilization⟩,rfl,⟨le_rfl,hbounds.2⟩,?_,?_⟩
      · exact List.forall_mem_nil _
      · exact ⟨[],[],rfl,rfl,List.forall_mem_nil _⟩
    · cases h
  · cases h

theorem stable_run (h : init settings = .ok scaler) (hbacklog : settings.backlogTargetSeconds ≠ 0)
    (hcooldown : 0 ≤ settings.cooldownSeconds) (observations : List AutoscalerObservation)
    (hrtf : ∀ observation ∈ observations, 0 < observation.workerRtf) :
    Follows settings (history observations scaler) (runAll observe observations scaler) ∧
      Stable settings (history observations scaler) := by
  obtain ⟨haccepted,hfollows⟩ := init_follows h
  induction observations using List.reverseRecOn with
  | nil =>
    refine ⟨hfollows,⟨by simp [history],List.Pairwise.nil,?_,by simp [history]⟩⟩
    intro before x later hsplit
    simp [history] at hsplit
  | append_singleton observations observation ih =>
    obtain ⟨hfollows,hstable⟩ := ih (fun o ho => hrtf o (List.mem_append_left _ ho))
    have hpositive := hrtf observation (List.mem_append_right _ List.mem_cons_self)
    obtain ⟨next,hok,hobserves⟩ :=
      observe_ok hpositive (hfollows.configured.symm ▸ hbacklog)
    have hnext := after_ok hok
    rw [history_append,runAll_append,runAll_cons,runAll_nil,hnext]
    exact ⟨hfollows.step haccepted hcooldown hobserves hnext,hstable.step hfollows hok hobserves⟩

/-- The replicas stay within their bounds. Every observation is answered; changes are a cooldown
apart; a decrease ends a block of windows of low load without a change in between; outside the
cooldown there are as many replicas as the observation asks for. -/
theorem autoscaler_stable (h : init settings = .ok scaler)
    (hbacklog : 0 < settings.backlogTargetSeconds) (hcooldown : 0 ≤ settings.cooldownSeconds)
    (observations : List AutoscalerObservation)
    (hrtf : ∀ observation ∈ observations, 0 < observation.workerRtf) :
    settings.minimumReplicas ≤ (runAll observe observations scaler).currentReplicas ∧
    (runAll observe observations scaler).currentReplicas ≤ settings.maximumReplicas ∧
    Stable settings (history observations scaler) := by
  obtain ⟨hfollows,hstable⟩ := stable_run h hbacklog.ne' hcooldown observations hrtf
  exact ⟨hfollows.bounds.1,hfollows.bounds.2,hstable⟩

/-- The defaults of the constructor, a load that grows and then three windows of low load. -/
theorem autoscaler_stable_defaults : ∃ scaler, init {} = .ok scaler ∧
    Stable {} (history [⟨6,1 / 2,5,9 / 10,1⟩,⟨1 / 10,1 / 2,0,1 / 10,40⟩,⟨1 / 10,1 / 2,0,1 / 10,50⟩,
      ⟨1 / 10,1 / 2,0,1 / 10,60⟩] scaler) := by
  have hdefaults := init_ok AutoscalerSettings.accepted_defaults
  exact ⟨_,hdefaults,(autoscaler_stable hdefaults (by decide +kernel) (by decide +kernel) _
    (by decide +kernel)).2.2⟩

end Runs

end SpeakerAutoscaler
end CueBee.Speaker
