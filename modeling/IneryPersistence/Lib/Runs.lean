import Mathlib.Data.List.Basic
import Mathlib.Tactic.Common

/-!
# Runs of a step function that may stop

* `run`: take the steps of a list of operations, one after the other, until one of them fails;
* `AllSteps`, `allSteps_part`: every operation meets its precondition in the state it is taken in;
* **`allSteps_iff_run`**: the precondition of the operation after every part of a run;
* **`run_invariant`**, **`run_exists`**, **`forall_run_iff`**: what every step preserves holds after
  every run;
* `forall_run_iff_part`: a part of an invariant that the rest follows from;
* `run_collects`: a list that every step appends to;
* **`run_simulates`**: two programs whose steps agree;
* `firstSome`, **`run_firstSome`**: a slot that is filled once keeps what filled it;
* `lastSome`: the last value that a list of operations gives.
-/

namespace KV

variable {S O V : Type} (step : S → O → Option S)

/-- The state after the operations `os`; `none` when a step stops the program. -/
def run (s : S) (os : List O) : Option S := os.foldlM step s

@[simp] theorem run_nil (s : S) : run step s [] = some s := rfl

@[simp] theorem run_cons (s : S) (o : O) (os : List O) :
    run step s (o :: os) = (step s o).bind fun s' => run step s' os := rfl

theorem run_append (s : S) (os os' : List O) :
    run step s (os ++ os') = (run step s os).bind fun s' => run step s' os' := by
  unfold run
  rw [List.foldlM_append]
  rfl

/-- Every operation of the run meets `Ok` in the state it is taken in. -/
def AllSteps (Ok : S → O → Prop) : S → List O → Prop
  | _, [] => True
  | s, o :: os => Ok s o ∧ ∀ s', step s o = some s' → AllSteps Ok s' os

theorem allSteps_cons {Ok : S → O → Prop} (s : S) (o : O) (os : List O) :
    AllSteps step Ok s (o :: os) ↔ Ok s o ∧ ∀ s', step s o = some s' → AllSteps step Ok s' os := Iff.rfl

theorem allSteps_congr {P Q : S → O → Prop} (h : ∀ s o, P s o ↔ Q s o) (s : S) (os : List O) :
    AllSteps step P s os ↔ AllSteps step Q s os := by
  induction os generalizing s with
  | nil => rfl
  | cons o os ih =>
    rw [allSteps_cons, allSteps_cons, h s o]
    exact and_congr_right fun _ => forall₂_congr fun s' _ => ih s'

theorem allSteps_iff_of_invariant {Ok P Q : S → O → Prop} {I : S → Prop}
    (hstep : ∀ s o s', I s → Ok s o → step s o = some s' → I s') (h : ∀ s o, I s → Ok s o → (P s o ↔ Q s o))
    {s : S} {os : List O} (hs : I s) (hok : AllSteps step Ok s os) :
    AllSteps step P s os ↔ AllSteps step Q s os := by
  induction os generalizing s with
  | nil => rfl
  | cons o os ih =>
    rw [allSteps_cons, allSteps_cons, h s o hs hok.1]
    exact and_congr_right fun _ => forall₂_congr fun s' hs' => ih (hstep s o s' hs hok.1 hs') (hok.2 s' hs')

theorem allSteps_of_forall {Ok : S → O → Prop} (h : ∀ s o, Ok s o) (s : S) (os : List O) :
    AllSteps step Ok s os := by
  induction os generalizing s with
  | nil => trivial
  | cons o os ih => exact ⟨h s o, fun s' _ => ih s'⟩

theorem allSteps_append {Ok : S → O → Prop} (s : S) (os os' : List O) :
    AllSteps step Ok s (os ++ os') ↔
      AllSteps step Ok s os ∧ ∀ s', run step s os = some s' → AllSteps step Ok s' os' := by
  induction os generalizing s with
  | nil => exact ⟨fun h => ⟨trivial, fun s' hs' => Option.some.inj hs' ▸ h⟩, fun h => h.2 s rfl⟩
  | cons o os ih =>
    rw [List.cons_append, allSteps_cons, allSteps_cons, and_assoc]
    refine and_congr_right fun _ => ?_
    constructor
    · intro h
      refine ⟨fun s₁ h₁ => ((ih s₁).mp (h s₁ h₁)).1, fun s' hs' => ?_⟩
      rw [run_cons] at hs'
      obtain ⟨s₁, h₁, hs'⟩ := Option.bind_eq_some_iff.mp hs'
      exact ((ih s₁).mp (h s₁ h₁)).2 s' hs'
    · rintro ⟨h, h'⟩ s₁ h₁
      refine (ih s₁).mpr ⟨h s₁ h₁, fun s' hs' => h' s' ?_⟩
      rw [run_cons, h₁]
      exact hs'

theorem allSteps_part {Ok : S → O → Prop} {s : S} {os os' : List O} (hpre : os' <+: os)
    (h : AllSteps step Ok s os) : AllSteps step Ok s os' := by
  obtain ⟨t, rfl⟩ := hpre
  exact ((allSteps_append step s os' t).mp h).1

/-- **Every operation meets its precondition** exactly if the one after every part of the run does. -/
theorem allSteps_iff_run {Ok : S → O → Prop} (s : S) (os : List O) :
    AllSteps step Ok s os ↔
      ∀ os' o, os' ++ [o] <+: os → ∀ s', run step s os' = some s' → Ok s' o := by
  constructor
  · rintro h os' o ⟨t, rfl⟩ s' hs'
    rw [List.append_assoc] at h
    exact (((allSteps_append step s os' _).mp h).2 s' hs').1
  · induction os generalizing s with
    | nil => exact fun _ => trivial
    | cons o os ih =>
      intro h
      refine ⟨h [] o ((List.prefix_cons_inj o).mpr List.nil_prefix) s rfl, fun s₁ h₁ =>
        ih s₁ fun os' o' hpre s' hs' => ?_⟩
      refine h (o :: os') o' ((List.prefix_cons_inj o).mpr hpre) s' ?_
      rw [run_cons, h₁]
      exact hs'

theorem allSteps_and {P Q : S → O → Prop} {s : S} {os : List O} (hP : AllSteps step P s os)
    (hQ : AllSteps step Q s os) : AllSteps step (fun s o => P s o ∧ Q s o) s os := by
  rw [allSteps_iff_run] at hP hQ ⊢
  exact fun os' o hpre s' hs' => ⟨hP os' o hpre s' hs', hQ os' o hpre s' hs'⟩

/-- **What every step preserves holds after every run.** -/
theorem run_invariant {Ok : S → O → Prop} {I : S → Prop}
    (hstep : ∀ s o s', I s → Ok s o → step s o = some s' → I s') {s s' : S} {os : List O}
    (hs : I s) (hok : AllSteps step Ok s os) (hrun : run step s os = some s') : I s' := by
  induction os generalizing s with
  | nil =>
    obtain rfl : s = s' := by simpa using hrun
    exact hs
  | cons o os ih =>
    rw [run_cons] at hrun
    obtain ⟨s₁, h₁, hrun⟩ := Option.bind_eq_some_iff.mp hrun
    exact ih (hstep s o s₁ hs hok.1 h₁) (hok.2 s₁ h₁) hrun

theorem allSteps_of_invariant {Ok P : S → O → Prop} {I : S → Prop}
    (hstep : ∀ s o s', I s → Ok s o → step s o = some s' → I s') (h : ∀ s o, I s → Ok s o → P s o)
    {s : S} {os : List O} (hs : I s) (hok : AllSteps step Ok s os) : AllSteps step P s os := by
  induction os generalizing s with
  | nil => trivial
  | cons o os ih => exact ⟨h s o hs hok.1, fun s' hs' => ih (hstep s o s' hs hok.1 hs') (hok.2 s' hs')⟩

/-- `run_invariant`, when the steps need no precondition. -/
theorem run_preserves {I : S → Prop} (hstep : ∀ s o s', I s → step s o = some s' → I s') {s s' : S}
    {os : List O} (hs : I s) (hrun : run step s os = some s') : I s' :=
  run_invariant step (fun s o s' hs (_ : True) => hstep s o s' hs) hs
    (allSteps_of_forall step (fun _ _ => trivial) s os) hrun

/-- **A run whose steps never fail** and keep the invariant ends in a state with it. -/
theorem run_exists {Ok : S → O → Prop} {I : S → Prop}
    (hstep : ∀ s o, I s → Ok s o → ∃ s', step s o = some s' ∧ I s') {s : S} {os : List O} (hs : I s)
    (hok : AllSteps step Ok s os) : ∃ s', run step s os = some s' ∧ I s' := by
  induction os generalizing s with
  | nil => exact ⟨s, rfl, hs⟩
  | cons o os ih =>
    obtain ⟨s₁, h₁, hs₁⟩ := hstep s o hs hok.1
    rw [run_cons, h₁]
    exact ih hs₁ (hok.2 s₁ h₁)

/-- **A property of all states that a run passes** holds exactly if every step keeps it, where the steps meet
`Ready` and the states an invariant `J`. -/
theorem forall_run_iff_of_invariant {I J : S → Prop} {Ready Ok : S → O → Prop}
    (hJ : ∀ s o s', J s → Ready s o → step s o = some s' → J s')
    (hstep : ∀ s o, J s → I s → Ready s o → ((∀ s', step s o = some s' → I s') ↔ Ok s o)) {s : S} (hs : J s)
    (hI : I s) {os : List O} (hready : AllSteps step Ready s os) :
    (∀ os', os' <+: os → ∀ s', run step s os' = some s' → I s') ↔ AllSteps step Ok s os := by
  induction os generalizing s with
  | nil =>
    refine iff_of_true (fun os' hpre s' hrun => ?_) trivial
    obtain rfl := List.prefix_nil.mp hpre
    obtain rfl : s = s' := by simpa using hrun
    exact hI
  | cons o os ih =>
    have hnext : ∀ s₁, step s o = some s₁ → J s₁ := fun s₁ h₁ => hJ s o s₁ hs hready.1 h₁
    constructor
    · intro h
      have hfirst : ∀ s', step s o = some s' → I s' := fun s' hs' =>
        h [o] ((List.prefix_cons_inj o).mpr List.nil_prefix) s' (by rw [run_cons, hs']; rfl)
      refine ⟨(hstep s o hs hI hready.1).mp hfirst, fun s₁ h₁ =>
        (ih (hnext s₁ h₁) (hfirst s₁ h₁) (hready.2 s₁ h₁)).mp fun os' hpre s' hrun => ?_⟩
      exact h (o :: os') ((List.prefix_cons_inj o).mpr hpre) s' (by rw [run_cons, h₁]; exact hrun)
    · rintro ⟨hok, hrest⟩ os' hpre s' hrun
      cases os' with
      | nil =>
        obtain rfl : s = s' := by simpa using hrun
        exact hI
      | cons o' os' =>
        obtain ⟨rfl, htail⟩ := List.cons_prefix_cons.mp hpre
        rw [run_cons] at hrun
        obtain ⟨s₁, h₁, hrun⟩ := Option.bind_eq_some_iff.mp hrun
        exact (ih (hnext s₁ h₁) ((hstep s o' hs hI hready.1).mpr hok s₁ h₁) (hready.2 s₁ h₁)).mpr (hrest s₁ h₁)
          os' htail s' hrun

/-- `forall_run_iff_of_invariant`, when every state and every operation is admitted. -/
theorem forall_run_iff {I : S → Prop} {Ok : S → O → Prop}
    (hstep : ∀ s o, I s → ((∀ s', step s o = some s' → I s') ↔ Ok s o)) {s : S} (hs : I s) (os : List O) :
    (∀ os', os' <+: os → ∀ s', run step s os' = some s' → I s') ↔ AllSteps step Ok s os :=
  forall_run_iff_of_invariant step (fun _ _ _ (_ : True) (_ : True) _ => trivial) (fun s o _ hI _ => hstep s o hI)
    trivial hs (allSteps_of_forall step (fun _ _ => trivial) s os)

/-- **A part `L` of an invariant `I`** that makes up for all that a step does to it. -/
theorem forall_run_iff_part {I L : S → Prop} (hL : ∀ s, I s → L s)
    (hstep : ∀ s o s', I s → step s o = some s' → L s' → I s') {s : S} (hs : I s) (os : List O) :
    (∀ os', os' <+: os → ∀ s', run step s os' = some s' → L s') ↔
      ∀ os', os' <+: os → ∀ s', run step s os' = some s' → I s' := by
  refine ⟨fun h => ?_, fun h os' hpre s' hrun => hL s' (h os' hpre s' hrun)⟩
  induction os generalizing s with
  | nil =>
    intro os' hpre s' hrun
    obtain rfl := List.prefix_nil.mp hpre
    obtain rfl : s = s' := by simpa using hrun
    exact hs
  | cons o os ih =>
    intro os' hpre s' hrun
    cases os' with
    | nil =>
      obtain rfl : s = s' := by simpa using hrun
      exact hs
    | cons o' os' =>
      obtain ⟨rfl, htail⟩ := List.cons_prefix_cons.mp hpre
      rw [run_cons] at hrun
      obtain ⟨s₁, h₁, hrun⟩ := Option.bind_eq_some_iff.mp hrun
      have hfirst : L s₁ := h [o'] ((List.prefix_cons_inj o').mpr List.nil_prefix) s₁ (by rw [run_cons, h₁]; rfl)
      refine ih (hstep s o' s₁ hs h₁ hfirst) (fun os₁ hpre₁ s₂ hrun₂ => ?_) os' htail s' hrun
      exact h (o' :: os₁) ((List.prefix_cons_inj o').mpr hpre₁) s₂ (by rw [run_cons, h₁]; exact hrun₂)

/-- **A list that every step appends to.** -/
theorem run_collects {Ok : S → O → Prop} {I : S → Prop} (f : S → List V) (g : O → List V)
    (hstep : ∀ s o s', I s → Ok s o → step s o = some s' → I s' ∧ f s' = f s ++ g o) {s s' : S} {os : List O}
    (hs : I s) (hok : AllSteps step Ok s os) (hrun : run step s os = some s') :
    I s' ∧ f s' = f s ++ os.flatMap g := by
  induction os generalizing s with
  | nil =>
    obtain rfl : s = s' := by simpa using hrun
    exact ⟨hs, (List.append_nil _).symm⟩
  | cons o os ih =>
    rw [run_cons] at hrun
    obtain ⟨s₁, h₁, hrun⟩ := Option.bind_eq_some_iff.mp hrun
    obtain ⟨hs₁, hf₁⟩ := hstep s o s₁ hs hok.1 h₁
    obtain ⟨hs', hf'⟩ := ih hs₁ (hok.2 s₁ h₁) hrun
    exact ⟨hs', by rw [hf', hf₁, List.append_assoc, List.flatMap_cons]⟩

/-- **Two programs stay in a relation that their steps keep**, stop together, and show what the relation implies. -/
theorem run_simulates {T : Type} (step' : T → O → Option T) {R Q : S → T → Prop}
    (hstep : ∀ s t o, R s t → Option.Rel R (step s o) (step' t o)) (hshows : ∀ s t, R s t → Q s t) {s : S} {t : T}
    (h : R s t) (os : List O) : Option.Rel Q (run step s os) (run step' t os) := by
  induction os generalizing s t with
  | nil => exact .some (hshows s t h)
  | cons o os ih =>
    have hrel := hstep s t o h
    rw [run_cons, run_cons]
    generalize step s o = a, step' t o = b at hrel ⊢
    cases hrel with
    | none => exact .none
    | some h' => exact ih h'

/-- The first value that `src` gives along the run. -/
def firstSome (src : S → O → Option V) : S → List O → Option V
  | _, [] => none
  | s, o :: os => (src s o).or ((step s o).bind fun s' => firstSome src s' os)

/-- **A slot that every step leaves alone once it is filled keeps the first value.** -/
theorem run_firstSome (slot : S → Option V) (src : S → O → Option V) {Ok : O → Prop}
    (hstep : ∀ s o s', Ok o → step s o = some s' → slot s' = (slot s).or (src s o)) {s s' : S}
    {os : List O} (hok : ∀ o ∈ os, Ok o) (hrun : run step s os = some s') :
    slot s' = (slot s).or (firstSome step src s os) := by
  induction os generalizing s with
  | nil =>
    obtain rfl : s = s' := by simpa using hrun
    simp [firstSome]
  | cons o os ih =>
    rw [run_cons] at hrun
    obtain ⟨s₁, h₁, hrun⟩ := Option.bind_eq_some_iff.mp hrun
    rw [ih (fun o ho => hok o (List.mem_cons_of_mem _ ho)) hrun,
      hstep s o s₁ (hok o List.mem_cons_self) h₁, firstSome, h₁, Option.or_assoc]
    rfl

/-- The last value that `f` gives along the operations. -/
def lastSome (f : O → Option V) (os : List O) : Option V := (os.filterMap f).getLast?

@[simp] theorem lastSome_nil (f : O → Option V) : lastSome f [] = none := rfl

theorem lastSome_cons (f : O → Option V) (o : O) (os : List O) :
    lastSome f (o :: os) = (lastSome f os).or (f o) := by
  unfold lastSome
  cases ho : f o with
  | none => rw [List.filterMap_cons_none ho, Option.or_none]
  | some v =>
    rw [List.filterMap_cons_some ho, List.getLast?_cons]
    cases (os.filterMap f).getLast? <;> rfl

end KV
