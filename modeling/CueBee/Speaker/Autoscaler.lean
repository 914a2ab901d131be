import Mathlib.Data.Rat.Floor
import CueBee.Support.RaisingCalls

/-! # The autoscaler

Replicas follow the load of the audio. Growth waits for the cooldown, shrinking waits for the
cooldown and for enough windows of low load in a row. Arithmetic is exact.
-/
namespace CueBee.Speaker
open Raising

/-- The arguments of the constructor with their defaults. -/
structure AutoscalerSettings where
  minimumReplicas : ℤ := 1
  maximumReplicas : ℤ := 16
  targetUtilization : ℚ := 7 / 10
  backlogTargetSeconds : ℚ := 2
  cooldownSeconds : ℚ := 30
  scaleDownWindows : ℤ := 3
deriving DecidableEq

structure AutoscalerObservation where
  audioArrivalSecondsPerSecond : ℚ
  workerRtf : ℚ
  backlogSeconds : ℚ
  workerUtilization : ℚ
  nowSeconds : ℚ
deriving DecidableEq

/-- The exceptions of the constructor. -/
inductive SettingsError
  | replicaBounds
  | targetUtilization
deriving DecidableEq

/-- The exceptions that leave `observe`. -/
inductive ObserveError
  | workerRtf
  | zeroDivision
deriving DecidableEq

namespace AutoscalerSettings

structure Accepted (settings : AutoscalerSettings) : Prop where
  positive : 0 < settings.minimumReplicas
  bounds : settings.minimumReplicas ≤ settings.maximumReplicas
  utilization : 0 < settings.targetUtilization ∧ settings.targetUtilization ≤ 1

theorem accepted_defaults : Accepted {} := ⟨by decide,by decide,by decide +kernel⟩

/-- The replicas that an observation asks for. -/
def desired (settings : AutoscalerSettings) (observation : AutoscalerObservation) : ℤ :=
  let base := ⌈observation.audioArrivalSecondsPerSecond * observation.workerRtf /
    settings.targetUtilization⌉
  let backlogCorrection :=
    max 0 (⌈observation.backlogSeconds / settings.backlogTargetSeconds⌉ - 1)
  min settings.maximumReplicas (max settings.minimumReplicas (base + backlogCorrection))

theorem desired_bounds {settings : AutoscalerSettings} (h : settings.Accepted)
    (observation : AutoscalerObservation) :
    settings.minimumReplicas ≤ settings.desired observation ∧
      settings.desired observation ≤ settings.maximumReplicas :=
  ⟨le_min h.bounds (le_max_left _ _),min_le_left _ _⟩

end AutoscalerSettings

/-- `lastScaleAt` is `none` for minus infinity. -/
structure SpeakerAutoscaler where
  settings : AutoscalerSettings
  accepted : settings.Accepted
  currentReplicas : ℤ
  lastScaleAt : Option ℚ
  lowLoadWindows : ℕ

namespace SpeakerAutoscaler

/-- The constructor. -/
def init (settings : AutoscalerSettings) : Except SettingsError SpeakerAutoscaler :=
  if hbounds : 0 < settings.minimumReplicas ∧ settings.minimumReplicas ≤ settings.maximumReplicas then
    if hutilization : 0 < settings.targetUtilization ∧ settings.targetUtilization ≤ 1 then
      .ok ⟨settings,⟨hbounds.1,hbounds.2,hutilization⟩,settings.minimumReplicas,none,0⟩
    else .error .targetUtilization
  else .error .replicaBounds

theorem init_ok {settings : AutoscalerSettings} (h : settings.Accepted) :
    init settings = .ok ⟨settings,h,settings.minimumReplicas,none,0⟩ := by
  rw [init,dif_pos ⟨h.positive,h.bounds⟩,dif_pos h.utilization]

def desired (scaler : SpeakerAutoscaler) (observation : AutoscalerObservation) : ℤ :=
  scaler.settings.desired observation

def inCooldown (scaler : SpeakerAutoscaler) (nowSeconds : ℚ) : Bool :=
  match scaler.lastScaleAt with
  | none => false
  | some lastScaleAt => nowSeconds - lastScaleAt < scaler.settings.cooldownSeconds

def lowLoad (scaler : SpeakerAutoscaler) (observation : AutoscalerObservation) : Bool :=
  scaler.desired observation < scaler.currentReplicas &&
  observation.workerUtilization < scaler.settings.targetUtilization * (65 / 100) &&
  observation.backlogSeconds < scaler.settings.backlogTargetSeconds * (25 / 100)

/-- The replicas are set and the cooldown starts. -/
def scale (observation : AutoscalerObservation) (scaler : SpeakerAutoscaler) : SpeakerAutoscaler :=
  { scaler with
    currentReplicas := scaler.desired observation
    lastScaleAt := some observation.nowSeconds
    lowLoadWindows := 0 }

def observe (observation : AutoscalerObservation) : EStateM ObserveError SpeakerAutoscaler ℤ := do
  let scaler ← get
  if observation.workerRtf ≤ 0 then throw .workerRtf
  else if scaler.settings.backlogTargetSeconds = 0 then throw .zeroDivision
  else do
    let desired := scaler.desired observation
    let inCooldown := scaler.inCooldown observation.nowSeconds
    if scaler.currentReplicas < desired then do
      set { scaler with lowLoadWindows := 0 }
      if inCooldown = false then set (scaler.scale observation)
      return (← get).currentReplicas
    else do
      let lowLoad := scaler.lowLoad observation
      let lowLoadWindows := if lowLoad = true then scaler.lowLoadWindows + 1 else 0
      set { scaler with lowLoadWindows := lowLoadWindows }
      if lowLoad = true ∧ scaler.settings.scaleDownWindows ≤ lowLoadWindows ∧ inCooldown = false then
        set (scaler.scale observation)
      return (← get).currentReplicas

/-- What an observation can do to the scaler. -/
inductive Observes (observation : AutoscalerObservation) (scaler : SpeakerAutoscaler) :
    SpeakerAutoscaler → Prop
  | waits (hmore : scaler.currentReplicas < scaler.desired observation)
      (hcooldown : scaler.inCooldown observation.nowSeconds = true) :
      Observes observation scaler { scaler with lowLoadWindows := 0 }
  | grows (hmore : scaler.currentReplicas < scaler.desired observation)
      (hcooldown : scaler.inCooldown observation.nowSeconds = false) :
      Observes observation scaler (scaler.scale observation)
  | shrinks (hlow : scaler.lowLoad observation = true)
      (hwindows : scaler.settings.scaleDownWindows ≤ (scaler.lowLoadWindows + 1 : ℕ))
      (hcooldown : scaler.inCooldown observation.nowSeconds = false) :
      Observes observation scaler (scaler.scale observation)
  | counts (hlow : scaler.lowLoad observation = true)
      (hwait : ¬scaler.settings.scaleDownWindows ≤ (scaler.lowLoadWindows + 1 : ℕ) ∨
        scaler.inCooldown observation.nowSeconds = true) :
      Observes observation scaler { scaler with lowLoadWindows := scaler.lowLoadWindows + 1 }
  | forgets (henough : scaler.desired observation ≤ scaler.currentReplicas)
      (hlow : scaler.lowLoad observation = false) :
      Observes observation scaler { scaler with lowLoadWindows := 0 }

theorem desired_lt_of_lowLoad {observation : AutoscalerObservation} {scaler : SpeakerAutoscaler}
    (h : scaler.lowLoad observation = true) :
    scaler.desired observation < scaler.currentReplicas := by
  simp only [lowLoad,Bool.and_eq_true,decide_eq_true_eq] at h
  exact h.1.1

theorem observe_ok {observation : AutoscalerObservation} {scaler : SpeakerAutoscaler}
    (hrtf : 0 < observation.workerRtf) (hbacklog : scaler.settings.backlogTargetSeconds ≠ 0) :
    ∃ next, observe observation scaler = .ok next.currentReplicas next ∧
      Observes observation scaler next := by
  have hrtf' := not_le.mpr hrtf
  by_cases hmore : scaler.currentReplicas < scaler.desired observation
  · cases hcooldown : scaler.inCooldown observation.nowSeconds with
    | true =>
      refine ⟨_,?_,.waits hmore hcooldown⟩
      simp only [observe,bind_ok (get_apply scaler),if_neg hrtf',if_neg hbacklog,if_pos hmore,hcooldown]
      rfl
    | false =>
      refine ⟨_,?_,.grows hmore hcooldown⟩
      simp only [observe,bind_ok (get_apply scaler),if_neg hrtf',if_neg hbacklog,if_pos hmore,hcooldown]
      rfl
  · cases hlow : scaler.lowLoad observation with
    | false =>
      refine ⟨_,?_,.forgets (not_lt.mp hmore) hlow⟩
      simp only [observe,bind_ok (get_apply scaler),if_neg hrtf',if_neg hbacklog,if_neg hmore,hlow]
      rfl
    | true =>
      by_cases hready : scaler.settings.scaleDownWindows ≤ (scaler.lowLoadWindows + 1 : ℕ) ∧
          scaler.inCooldown observation.nowSeconds = false
      · refine ⟨_,?_,.shrinks hlow hready.1 hready.2⟩
        simp only [observe,bind_ok (get_apply scaler),if_neg hrtf',if_neg hbacklog,if_neg hmore,hlow]
        simp only [if_true,true_and,if_pos hready]
        rfl
      · refine ⟨_,?_,.counts hlow ?_⟩
        · simp only [observe,bind_ok (get_apply scaler),if_neg hrtf',if_neg hbacklog,if_neg hmore,hlow]
          simp only [if_true,true_and,if_neg hready]
          rfl
        · rcases not_and_or.mp hready with hwindows | hcooldown
          · exact .inl hwindows
          · exact .inr (Bool.of_not_eq_false hcooldown)

end SpeakerAutoscaler
end CueBee.Speaker
