import Mathlib.Logic.Function.Basic
import Mathlib.Tactic.Common

/-!
# Overlays of partial maps, and undo logs

A stack of caches over a store is a pile of partial maps, each hiding the ones under it.

* `override`, `pile`: laying partial maps over one another;
* `override_copy`: copying an entry up from below changes nothing that can be read;
* `override_update`, `override_assoc`, `override_none`: writes and flushes;
* `restore`, **`restore_append_single`**: replaying the old values of a log in reverse order undoes
  the writes.
-/

namespace KV

variable {K V : Type}

/-- `m` laid over `b`: an entry of `m` hides that of `b`. -/
def override (m b : K → Option V) : K → Option V := fun k => (m k).or (b k)

/-- The maps of `ms` laid over `b`, the first one on top. -/
def pile (ms : List (K → Option V)) (b : K → Option V) : K → Option V := ms.foldr override b

@[simp] theorem pile_nil (b : K → Option V) : pile [] b = b := rfl

@[simp] theorem pile_cons (m : K → Option V) (ms : List (K → Option V)) (b : K → Option V) :
    pile (m :: ms) b = override m (pile ms b) := rfl

theorem override_of_some {m : K → Option V} {k : K} {v : V} (h : m k = some v) (b : K → Option V) :
    override m b k = some v := by simp [override, h]

theorem override_of_none {m : K → Option V} {k : K} (h : m k = none) (b : K → Option V) :
    override m b k = b k := by simp [override, h]

theorem pile_eq_or (ms : List (K → Option V)) (b : K → Option V) (k : K) :
    pile ms b k = (pile ms (fun _ => none) k).or (b k) := by
  induction ms with
  | nil => rfl
  | cons m ms ih => rw [pile_cons, override, ih, pile_cons, override, Option.or_assoc]

@[simp] theorem override_none (b : K → Option V) : override (fun _ => none) b = b := by
  funext k
  simp [override]

theorem override_assoc (m m' b : K → Option V) : override (override m m') b = override m (override m' b) := by
  funext k
  simp [override, Option.or_assoc]

variable [DecidableEq K]

/-- **Copying an entry up from below changes nothing that can be read.** -/
theorem override_copy {m b : K → Option V} {k : K} {v : V} (hm : m k = none) (hb : b k = some v) :
    override (Function.update m k (some v)) b = override m b := by
  funext k'
  by_cases h : k' = k
  · subst h
    simp [override, hm, hb]
  · simp [override, Function.update_of_ne h]

theorem override_update (m b : K → Option V) (k : K) (v : V) :
    override (Function.update m k (some v)) b = Function.update (override m b) k (some v) := by
  funext k'
  by_cases h : k' = k
  · subst h
    simp [override]
  · simp [override, Function.update_of_ne h]

/-- Put back the old values of a log, the last entry first. -/
def restore {A : Type} (log : List (K × A)) (f : K → A) : K → A :=
  log.foldr (fun e f => Function.update f e.1 e.2) f

@[simp] theorem restore_nil {A : Type} (f : K → A) : restore [] f = f := rfl

theorem restore_append {A : Type} (log log' : List (K × A)) (f : K → A) :
    restore (log ++ log') f = restore log (restore log' f) := List.foldr_append

theorem restore_of_notMem {A : Type} {log : List (K × A)} {k : K} (hk : k ∉ log.map Prod.fst) (f : K → A) :
    restore log f k = f k := by
  induction log with
  | nil => rfl
  | cons e log ih =>
    obtain ⟨hne, hk⟩ := not_or.mp (mt List.mem_cons.mpr hk)
    show Function.update (restore log f) e.1 e.2 k = f k
    rw [Function.update_of_ne hne, ih hk]

/-- What the log names does not depend on what there was. -/
theorem restore_of_mem {A : Type} {log : List (K × A)} {k : K} (hk : k ∈ log.map Prod.fst) (f g : K → A) :
    restore log f k = restore log g k := by
  induction log with
  | nil => exact absurd hk List.not_mem_nil
  | cons e log ih =>
    show Function.update (restore log f) e.1 e.2 k = Function.update (restore log g) e.1 e.2 k
    by_cases hke : k = e.1
    · rw [hke, Function.update_self, Function.update_self]
    · rw [Function.update_of_ne hke, Function.update_of_ne hke]
      exact ih ((List.mem_cons.mp hk).resolve_left hke)

/-- **Undoing a logged write.** -/
theorem restore_append_single {A : Type} (log : List (K × A)) (f : K → A) (k : K) (a : A) :
    restore (log ++ [(k, f k)]) (Function.update f k a) = restore log f := by
  rw [restore_append]
  simp [restore]

end KV
