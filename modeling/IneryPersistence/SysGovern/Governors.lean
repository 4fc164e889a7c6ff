import IneryPersistence.Block.Serializers
import IneryPersistence.Cache.Kept
import IneryPersistence.Cdp.Keys
import IneryPersistence.Db.Containers

/-!
# The governors

`governors_cache` keeps a set of accounts. Where the stored set is empty, the readers see one default governor;
the writers work on the stored set.

* `getGovernors`, `checkIsGovernor`, `getGovernorApprovalMinCount`, `addGovernor`, `eraseGovernor`;
* `stored`, `inForce`: the stored set of a level, and the governors that its readers see;
* `stored_addGovernor`, `stored_eraseGovernor`: what the writers leave;
* **`governor_changes_iff`**: when each change is an insertion or a removal on the governors in force;
* **`approval_majority_iff`**: when the approval threshold is a majority of two thirds.
-/

namespace Inery

open KV

/-- The operations on `governors_cache`. -/
inductive GovernOp
  | addGovernor (governor : IneryRegID)
  | eraseGovernor (governor : IneryRegID)
  | checkIsGovernor (candidateRegId : IneryRegID)
  | getGovernorApprovalMinCount
  | undoData (dbOpLog : CDbOpLog)
  | flush

/-- The levels of `governors_cache` over a database. -/
abbrev GovernLevels := SingleLevels (Finset IneryRegID)

section Model

variable [Serial (Finset IneryRegID)] (ver2GenesisHeight : Fin (2 ^ 32)) (acc : CDBAccess)

/-- `IneryRegID(SysCfg().GetVer2GenesisHeight(), 2)`. -/
def defaultGovernor : IneryRegID := toLex (ver2GenesisHeight, 2)

/-- The governors that the readers make of a stored set. -/
def inForce (governors : Finset IneryRegID) : Finset IneryRegID :=
  if governors.card = 0 then insert (defaultGovernor ver2GenesisHeight) governors else governors

/-- `GetGovernors`. -/
def getGovernors (s : SimpleStack (Finset IneryRegID)) :
    Option (SimpleStack (Finset IneryRegID) × Finset IneryRegID) :=
  (SimpleStack.getData acc .sysGovern s).map fun r => (r.1, inForce ver2GenesisHeight (r.2.getD ∅))

/-- `CheckIsGovernor`. -/
def checkIsGovernor (s : SimpleStack (Finset IneryRegID)) (candidateRegId : IneryRegID) :
    Option (SimpleStack (Finset IneryRegID) × Bool) :=
  (getGovernors ver2GenesisHeight acc s).map fun r => (r.1, decide (candidateRegId ∈ r.2))

/-- `GetGovernorApprovalMinCount`: the count is returned as a `uint8_t`. -/
def getGovernorApprovalMinCount (s : SimpleStack (Finset IneryRegID)) :
    Option (SimpleStack (Finset IneryRegID) × UInt8) :=
  (getGovernors ver2GenesisHeight acc s).map fun r => (r.1, UInt8.ofNat (r.2.card - r.2.card / 3))

/-- `AddGovernor`. -/
def addGovernor (log : Option CDBOpLogMap) (s : SimpleStack (Finset IneryRegID)) (governor : IneryRegID) :
    Option (SimpleStack (Finset IneryRegID) × Option CDBOpLogMap) :=
  (SimpleStack.getData acc .sysGovern s).bind fun r =>
    SimpleStack.setData acc .sysGovern log r.1 (insert governor (r.2.getD ∅))

/-- `EraseGovernor`. -/
def eraseGovernor (log : Option CDBOpLogMap) (s : SimpleStack (Finset IneryRegID)) (governor : IneryRegID) :
    Option (SimpleStack (Finset IneryRegID) × Option CDBOpLogMap) :=
  (SimpleStack.getData acc .sysGovern s).bind fun r =>
    SimpleStack.setData acc .sysGovern log r.1 ((r.2.getD ∅).erase governor)

/-- An operation on the cache `c` over `base`; `none` when it throws. -/
def GovernOp.apply (log : Option CDBOpLogMap) (c : InerySimpleKVCache (Finset IneryRegID))
    (base : SimpleStack (Finset IneryRegID)) :
    GovernOp → Option (CDBAccess × SimpleStack (Finset IneryRegID) × Option CDBOpLogMap)
  | addGovernor governor => (Inery.addGovernor acc log (c :: base) governor).map fun r => (acc, r)
  | eraseGovernor governor => (Inery.eraseGovernor acc log (c :: base) governor).map fun r => (acc, r)
  | checkIsGovernor candidateRegId =>
    (Inery.checkIsGovernor ver2GenesisHeight acc (c :: base) candidateRegId).map fun r => (acc, r.1, log)
  | getGovernorApprovalMinCount =>
    (Inery.getGovernorApprovalMinCount ver2GenesisHeight acc (c :: base)).map fun r => (acc, r.1, log)
  | undoData dbOpLog => (c.undoData dbOpLog).map fun c' => (acc, c' :: base, log)
  | flush =>
    let r := SimpleStack.flush acc .sysGovern (c :: base)
    some (r.1, r.2, log)

namespace GovernLevels

/-- One operation at a level, or what other caches do to the database. -/
def step (st : GovernLevels) : LevelOp GovernOp → Option GovernLevels
  | .cache i op =>
    match st.caches.drop i with
    | c :: base => (op.apply ver2GenesisHeight st.acc (st.log i) c base).map fun r =>
      ⟨r.1, st.caches.take i ++ r.2.1, Function.update st.log i r.2.2⟩
    | [] => none
  | .database acc => some { st with acc := acc }

/-- The level exists, and others leave the record of the governors. -/
def Ready (st : GovernLevels) : LevelOp GovernOp → Prop
  | .cache i _ => i < st.caches.length
  | .database acc => SameRecords .sysGovern st.acc acc

/-- `CheckIsGovernor` at a level. -/
def IsGovernor (st : GovernLevels) (i : ℕ) (candidateRegId : IneryRegID) : Prop :=
  (checkIsGovernor ver2GenesisHeight st.acc (st.caches.drop i) candidateRegId).map Prod.snd = some true

/-- A change of the governors, as an insertion into or a removal from those in force. -/
def SetLaw (st : GovernLevels) (op : LevelOp GovernOp) (st' : GovernLevels) : Prop :=
  match op with
  | .cache i (.addGovernor governor) =>
    ∀ x, IsGovernor ver2GenesisHeight st' i x ↔ x = governor ∨ IsGovernor ver2GenesisHeight st i x
  | .cache i (.eraseGovernor governor) =>
    (∃ y, y ≠ governor ∧ IsGovernor ver2GenesisHeight st i y) →
      ∀ x, IsGovernor ver2GenesisHeight st' i x ↔ x ≠ governor ∧ IsGovernor ver2GenesisHeight st i x
  | _ => True

/-- The stored set of a level. -/
def stored (st : GovernLevels) (i : ℕ) : Finset IneryRegID :=
  (SimpleStack.view st.acc .sysGovern (st.caches.drop i)).getD ∅

/-- A governor is added to a stored set with a member, or is the default governor. -/
def KeepsDefault (st : GovernLevels) : LevelOp GovernOp → Prop
  | .cache i (.addGovernor governor) =>
    (st.stored i).Nonempty ∨ governor = defaultGovernor ver2GenesisHeight
  | _ => True

end GovernLevels

end Model

/-! ## The governors in force -/

section InForce

variable (ver2GenesisHeight : Fin (2 ^ 32))

theorem inForce_empty : inForce ver2GenesisHeight ∅ = {defaultGovernor ver2GenesisHeight} := rfl

theorem inForce_of_nonempty {governors : Finset IneryRegID} (h : governors.Nonempty) :
    inForce ver2GenesisHeight governors = governors := if_neg (Finset.card_pos.mpr h).ne'

theorem card_inForce_pos (governors : Finset IneryRegID) : 0 < (inForce ver2GenesisHeight governors).card := by
  unfold inForce
  split_ifs with h
  · exact Finset.card_pos.mpr (Finset.insert_nonempty _ _)
  · exact Nat.pos_of_ne_zero h

/-- An insertion into the stored set drops the default governor when the set was empty. -/
theorem mem_inForce_insert_iff (governors : Finset IneryRegID) (governor : IneryRegID) :
    (∀ x, x ∈ inForce ver2GenesisHeight (insert governor governors) ↔
        x = governor ∨ x ∈ inForce ver2GenesisHeight governors) ↔
      governors.Nonempty ∨ governor = defaultGovernor ver2GenesisHeight := by
  rw [inForce_of_nonempty _ (Finset.insert_nonempty _ _)]
  rcases governors.eq_empty_or_nonempty with rfl | hne
  · rw [inForce_empty]
    constructor
    · intro h
      have hdefault := (h (defaultGovernor ver2GenesisHeight)).mpr (.inr (Finset.mem_singleton_self _))
      exact .inr (Finset.mem_singleton.mp hdefault).symm
    · rintro (h | rfl) x
      · exact absurd h Finset.not_nonempty_empty
      · simp
  · rw [inForce_of_nonempty _ hne]
    exact iff_of_true (fun x => Finset.mem_insert) (.inl hne)

/-- A removal that leaves another member leaves the default governor, too. -/
theorem mem_inForce_erase {governors : Finset IneryRegID} {governor : IneryRegID}
    (h : ∃ y, y ≠ governor ∧ y ∈ inForce ver2GenesisHeight governors) (x : IneryRegID) :
    x ∈ inForce ver2GenesisHeight (governors.erase governor) ↔
      x ≠ governor ∧ x ∈ inForce ver2GenesisHeight governors := by
  obtain ⟨y, hne, hy⟩ := h
  rcases governors.eq_empty_or_nonempty with rfl | hgov
  · rw [inForce_empty, Finset.mem_singleton] at hy
    rw [Finset.erase_empty, inForce_empty, Finset.mem_singleton]
    refine ⟨fun hx => ⟨?_, hx⟩, And.right⟩
    rw [hx, ← hy]
    exact hne
  · rw [inForce_of_nonempty _ hgov] at hy ⊢
    rw [inForce_of_nonempty _ ⟨y, Finset.mem_erase.mpr ⟨hne, hy⟩⟩, Finset.mem_erase]

/-- **The threshold in 8 bits** is the one of `n` governors while there are at most 382 of them. -/
theorem majority_iff {n m : ℕ} (hn : 0 < n) (hm : m = (UInt8.ofNat (n - n / 3)).toNat) :
    (1 ≤ m ∧ m ≤ n ∧ 2 * n ≤ 3 * m ∧ 3 * m < 2 * n + 3) ↔ n ≤ 382 := by
  rw [UInt8.toNat_ofNat'] at hm
  omega

end InForce

/-! ## What the operations leave -/

namespace GovernLevels

variable {st : GovernLevels} {i : ℕ}

/-- What a new set at the level `i` leaves. -/
def withSet (st : GovernLevels) (i : ℕ) (governors : Finset IneryRegID) (t : SimpleStack (Finset IneryRegID))
    (log : Option CDBOpLogMap) : GovernLevels :=
  ⟨st.acc, st.caches.take i ++ ⟨some governors⟩ :: t, Function.update st.log i log⟩

theorem stored_withSet [Serial (Finset IneryRegID)] (hi : i < st.caches.length) (governors : Finset IneryRegID)
    (t : SimpleStack (Finset IneryRegID)) (log : Option CDBOpLogMap) :
    (st.withSet i governors t log).stored i = governors ∧
      i < (st.withSet i governors t log).caches.length := by
  have hlen : (st.caches.take i).length = i := by rw [List.length_take, min_eq_left hi.le]
  constructor
  · unfold stored withSet
    rw [List.drop_left' hlen]
    exact getD_live_some governors
  · rw [withSet, List.length_append, List.length_cons, hlen]
    omega

section Step

variable [Serial (Finset IneryRegID)] (ver2GenesisHeight : Fin (2 ^ 32))
  (hacc : SimpleStack.SingleStored (Finset IneryRegID) st.acc .sysGovern)

include hacc

theorem update_eq (hi : i < st.caches.length) (f : Finset IneryRegID → Finset IneryRegID) :
    ∃ t log, ((SimpleStack.getData st.acc .sysGovern (st.caches.drop i)).bind fun r =>
        SimpleStack.setData st.acc .sysGovern (st.log i) r.1 (f (r.2.getD ∅))) =
      some (⟨some (f (st.stored i))⟩ :: t, log) := by
  obtain ⟨c, base, hdrop⟩ := SimpleStack.exists_drop_eq_cons hi
  obtain ⟨s, hget, hset⟩ := SimpleStack.getData_setData_cons hacc (st.log i) c base
  obtain ⟨t, log, ht, -, -⟩ := hset (f (st.stored i))
  refine ⟨t, log, ?_⟩
  unfold stored at ht ⊢
  rw [hdrop] at ht ⊢
  rw [hget, Option.bind_some, ht]

theorem stored_addGovernor (hi : i < st.caches.length) (governor : IneryRegID) :
    ∃ st', step ver2GenesisHeight st (.cache i (.addGovernor governor)) = some st' ∧ st'.acc = st.acc ∧
      st'.stored i = insert governor (st.stored i) ∧ i < st'.caches.length := by
  obtain ⟨c, base, hdrop⟩ := SimpleStack.exists_drop_eq_cons hi
  obtain ⟨t, log, hset⟩ := update_eq hacc hi (insert governor)
  rw [hdrop] at hset
  have hstep : step ver2GenesisHeight st (.cache i (.addGovernor governor)) =
      some (st.withSet i (insert governor (st.stored i)) t log) := by
    simp only [step, hdrop, GovernOp.apply, addGovernor, hset, Option.map_some, withSet]
  exact ⟨_, hstep, rfl, stored_withSet hi _ t log⟩

theorem stored_eraseGovernor (hi : i < st.caches.length) (governor : IneryRegID) :
    ∃ st', step ver2GenesisHeight st (.cache i (.eraseGovernor governor)) = some st' ∧ st'.acc = st.acc ∧
      st'.stored i = (st.stored i).erase governor ∧ i < st'.caches.length := by
  obtain ⟨c, base, hdrop⟩ := SimpleStack.exists_drop_eq_cons hi
  obtain ⟨t, log, hset⟩ := update_eq hacc hi fun governors => governors.erase governor
  rw [hdrop] at hset
  have hstep : step ver2GenesisHeight st (.cache i (.eraseGovernor governor)) =
      some (st.withSet i ((st.stored i).erase governor) t log) := by
    simp only [step, hdrop, GovernOp.apply, eraseGovernor, hset, Option.map_some, withSet]
  exact ⟨_, hstep, rfl, stored_withSet hi _ t log⟩

variable [LawfulSerial (Finset IneryRegID)]

/-- **The readers see the governors in force.** -/
theorem getGovernors_eq (hi : i < st.caches.length) :
    ∃ s, getGovernors ver2GenesisHeight st.acc (st.caches.drop i) =
      some (s, inForce ver2GenesisHeight (st.stored i)) := by
  obtain ⟨c, base, hdrop⟩ := SimpleStack.exists_drop_eq_cons hi
  obtain ⟨s, hget, -⟩ := (SimpleStack.refinesValue hacc none [] c base).getData
  refine ⟨s, ?_⟩
  unfold stored
  rw [hdrop, getGovernors, hget, Option.map_some]

theorem isGovernor_iff (hi : i < st.caches.length) (x : IneryRegID) :
    IsGovernor ver2GenesisHeight st i x ↔ x ∈ inForce ver2GenesisHeight (st.stored i) := by
  obtain ⟨s, hget⟩ := getGovernors_eq ver2GenesisHeight hacc hi
  unfold IsGovernor
  rw [checkIsGovernor, hget, Option.map_some, Option.map_some, Option.some_inj, decide_eq_true_iff]

theorem setLaw_iff {op : LevelOp GovernOp} (hop : st.Ready op) :
    (∀ st', step ver2GenesisHeight st op = some st' → SetLaw ver2GenesisHeight st op st') ↔
      st.KeepsDefault ver2GenesisHeight op := by
  cases op with
  | database acc => exact iff_of_true (fun _ _ => trivial) trivial
  | cache i op =>
    have hi : i < st.caches.length := hop
    cases op with
    | addGovernor governor =>
      obtain ⟨st₁, hstep, hacc₁, hstored, hi₁⟩ :=
        stored_addGovernor ver2GenesisHeight hacc hi governor
      have hlaw := mem_inForce_insert_iff ver2GenesisHeight (st.stored i) governor
      rw [← hstored] at hlaw
      refine Iff.trans ?_ hlaw
      have hacc₁' : SimpleStack.SingleStored (Finset IneryRegID) st₁.acc .sysGovern := hacc₁ ▸ hacc
      simp only [hstep, Option.some_inj, forall_eq', SetLaw, isGovernor_iff _ hacc hi, isGovernor_iff _ hacc₁' hi₁]
    | eraseGovernor governor =>
      refine iff_of_true (fun st₂ hst₂ => ?_) trivial
      obtain ⟨st₁, hstep, hacc₁, hstored, hi₁⟩ :=
        stored_eraseGovernor ver2GenesisHeight hacc hi governor
      obtain rfl : st₁ = st₂ := Option.some.inj (hstep.symm.trans hst₂)
      have hacc₁' : SimpleStack.SingleStored (Finset IneryRegID) st₁.acc .sysGovern := hacc₁ ▸ hacc
      simp only [SetLaw, isGovernor_iff _ hacc hi, isGovernor_iff _ hacc₁' hi₁]
      rw [hstored]
      exact mem_inForce_erase ver2GenesisHeight
    | checkIsGovernor | getGovernorApprovalMinCount | undoData | flush =>
      exact iff_of_true (fun _ _ => trivial) trivial

end Step

/-! ## Runs -/

variable (ver2GenesisHeight : Fin (2 ^ 32))

theorem singleStored_step [Serial (Finset IneryRegID)] [LawfulSerial (Finset IneryRegID)] {op : LevelOp GovernOp}
    (hacc : SimpleStack.SingleStored (Finset IneryRegID) st.acc .sysGovern) (hop : st.Ready op) {st' : GovernLevels}
    (h : step ver2GenesisHeight st op = some st') :
    SimpleStack.SingleStored (Finset IneryRegID) st'.acc .sysGovern := by
  cases op with
  | database acc =>
    obtain rfl := Option.some.inj h
    have hsame : SameRecords .sysGovern st.acc acc := hop
    intro v hv
    rw [hsame.getSingle] at hv
    exact hacc v hv
  | cache i op =>
    obtain ⟨c, base, hdrop⟩ := SimpleStack.exists_drop_eq_cons hop
    simp only [step, hdrop] at h
    obtain ⟨r, hr, rfl⟩ := Option.map_eq_some_iff.mp h
    cases op with
    | flush =>
      obtain rfl := Option.some.inj hr
      exact SimpleStack.singleStored_flush st.acc .sysGovern hacc (c :: base)
    | addGovernor | eraseGovernor | checkIsGovernor | getGovernorApprovalMinCount | undoData =>
      obtain ⟨r', -, rfl⟩ := Option.map_eq_some_iff.mp hr
      exact hacc

theorem run_addGovernor [Serial (Finset IneryRegID)]
    (hacc : SimpleStack.SingleStored (Finset IneryRegID) st.acc .sysGovern) (hi : i < st.caches.length)
    (governors : List IneryRegID) :
    ∃ st', run (step ver2GenesisHeight) st (governors.map fun governor => .cache i (.addGovernor governor)) =
      some st' ∧ SimpleStack.SingleStored (Finset IneryRegID) st'.acc .sysGovern ∧ i < st'.caches.length ∧
        st'.stored i = st.stored i ∪ governors.toFinset := by
  induction governors generalizing st with
  | nil => exact ⟨st, rfl, hacc, hi, by simp⟩
  | cons governor governors ih =>
    obtain ⟨st₁, hstep, hacc₁, hstored, hi₁⟩ :=
      stored_addGovernor ver2GenesisHeight hacc hi governor
    obtain ⟨st', hrun, hacc', hi', hunion⟩ := ih (hacc₁ ▸ hacc) hi₁
    refine ⟨st', ?_, hacc', hi', ?_⟩
    · rw [List.map_cons, run_cons, hstep, Option.bind_some, hrun]
    · rw [hunion, hstored, List.toFinset_cons, Finset.insert_union, Finset.union_insert]

/-- **Governor changes on the governors in force.** In every run of the operations, at any levels over a database
without an empty set, every `AddGovernor` inserts into the governors in force and every `EraseGovernor` that leaves
another one removes from them, exactly if every `AddGovernor` finds a stored governor or adds the default one. -/
theorem governor_changes_iff [Serial (Finset IneryRegID)] [LawfulSerial (Finset IneryRegID)] {acc : CDBAccess}
    (hacc : SimpleStack.SingleStored (Finset IneryRegID) acc .sysGovern) (n : ℕ)
    (log : ℕ → Option CDBOpLogMap) {ops : List (LevelOp GovernOp)}
    (hops : AllSteps (step ver2GenesisHeight) Ready ⟨acc, List.replicate n ⟨none⟩, log⟩ ops) :
    AllSteps (step ver2GenesisHeight) (fun st op => ∀ st', step ver2GenesisHeight st op = some st' →
        SetLaw ver2GenesisHeight st op st') ⟨acc, List.replicate n ⟨none⟩, log⟩ ops ↔
      AllSteps (step ver2GenesisHeight) (KeepsDefault ver2GenesisHeight) ⟨acc, List.replicate n ⟨none⟩, log⟩ ops :=
  allSteps_iff_of_invariant (step ver2GenesisHeight)
    (I := fun st => SimpleStack.SingleStored (Finset IneryRegID) st.acc .sysGovern)
    (fun _ _ _ hst hop h => singleStored_step ver2GenesisHeight hst hop h)
    (fun _ _ hst hop => setLaw_iff ver2GenesisHeight hst hop) hacc hops

section Runs

open BigEndianKeys LittleEndian

/-- One empty cache over an empty database. -/
def noGovernors : GovernLevels := ⟨⟨.sysgovern, ∅⟩, [⟨none⟩], fun _ => none⟩

theorem singleStored_noGovernors : SimpleStack.SingleStored (Finset IneryRegID) noGovernors.acc .sysGovern :=
  fun _ h => by cases h

/-- The default governor is added before another one, and erased in the base after a flush. -/
theorem governor_changes_iff_three :
    AllSteps (step 100) (fun st op => ∀ st', step 100 st op = some st' → SetLaw 100 st op st')
      ⟨noGovernors.acc, List.replicate 2 ⟨none⟩, fun _ => none⟩
      [.cache 0 (.addGovernor (defaultGovernor 100)), .cache 0 (.addGovernor (toLex (7, 1))), .cache 0 .flush,
        .cache 1 (.eraseGovernor (defaultGovernor 100))] := by
  refine (governor_changes_iff 100 singleStored_noGovernors 2 (fun _ => none) ?_).mpr ?_
  · refine ⟨show 0 < 2 by decide, fun st₁ h₁ => ?_⟩
    obtain rfl := Option.some.inj h₁
    refine ⟨show 0 < 2 by decide, fun st₂ h₂ => ?_⟩
    obtain rfl := Option.some.inj h₂
    refine ⟨show 0 < 2 by decide, fun st₃ h₃ => ?_⟩
    obtain rfl := Option.some.inj h₃
    exact ⟨show 1 < 2 by decide, fun _ _ => trivial⟩
  · refine ⟨.inr rfl, fun st₁ h₁ => ?_⟩
    obtain rfl := Option.some.inj h₁
    exact ⟨.inl (by decide +kernel), fun _ _ => ⟨trivial, fun _ _ => ⟨trivial, fun _ _ => trivial⟩⟩⟩

/-- The first governor that is added takes the place of the default one. -/
theorem default_governor_dropped :
    ∃ st', step 100 noGovernors (.cache 0 (.addGovernor (toLex (7, 1)))) = some st' ∧
      ¬ SetLaw 100 noGovernors (.cache 0 (.addGovernor (toLex (7, 1)))) st' := by
  refine ⟨_, rfl, fun hlaw => ?_⟩
  have hbefore : IsGovernor 100 noGovernors 0 (defaultGovernor 100) := by
    unfold IsGovernor
    decide +kernel
  have hafter := (hlaw (defaultGovernor 100)).mpr (.inr hbefore)
  unfold IsGovernor at hafter
  exact absurd hafter (by decide +kernel)

end Runs

/-- **The approval threshold.** In every state that a run reaches, at every level, the threshold of the `n`
governors in force is a majority of two thirds exactly if there are at most 382 of them. -/
theorem approval_majority_iff [Serial (Finset IneryRegID)] [LawfulSerial (Finset IneryRegID)] {acc : CDBAccess}
    (hacc : SimpleStack.SingleStored (Finset IneryRegID) acc .sysGovern) (n : ℕ)
    (log : ℕ → Option CDBOpLogMap) {ops : List (LevelOp GovernOp)}
    (hops : AllSteps (step ver2GenesisHeight) Ready ⟨acc, List.replicate n ⟨none⟩, log⟩ ops) {st : GovernLevels}
    (hrun : run (step ver2GenesisHeight) ⟨acc, List.replicate n ⟨none⟩, log⟩ ops = some st) {i : ℕ}
    (hi : i < st.caches.length) :
    ∃ s governors s' m, getGovernors ver2GenesisHeight st.acc (st.caches.drop i) = some (s, governors) ∧
      getGovernorApprovalMinCount ver2GenesisHeight st.acc (st.caches.drop i) = some (s', m) ∧
        ((1 ≤ m.toNat ∧ m.toNat ≤ governors.card ∧ 2 * governors.card ≤ 3 * m.toNat ∧
          3 * m.toNat < 2 * governors.card + 3) ↔ governors.card ≤ 382) := by
  have hst := run_invariant (step ver2GenesisHeight)
    (I := fun st => SimpleStack.SingleStored (Finset IneryRegID) st.acc .sysGovern)
    (fun _ _ _ hst hop h => singleStored_step ver2GenesisHeight hst hop h) hacc hops hrun
  obtain ⟨s, hget⟩ := getGovernors_eq ver2GenesisHeight hst hi
  refine ⟨s, _, s, _, hget, by rw [getGovernorApprovalMinCount, hget, Option.map_some], ?_⟩
  exact majority_iff (card_inForce_pos ver2GenesisHeight _) rfl

section Threshold

open BigEndianKeys LittleEndian

/-- Two governors, added through a cache and flushed into the database. -/
theorem approval_majority_iff_two :
    let ops : List (LevelOp GovernOp) := [.cache 0 (.addGovernor (toLex (7, 1))),
      .cache 0 (.addGovernor (toLex (8, 1))), .cache 0 .flush, .cache 1 .flush]
    ∃ st, run (step 100) ⟨noGovernors.acc, List.replicate 2 ⟨none⟩, fun _ => none⟩ ops = some st ∧
      ∃ s governors s' m, getGovernors 100 st.acc (st.caches.drop 0) = some (s, governors) ∧
        getGovernorApprovalMinCount 100 st.acc (st.caches.drop 0) = some (s', m) ∧
          ((1 ≤ m.toNat ∧ m.toNat ≤ governors.card ∧ 2 * governors.card ≤ 3 * m.toNat ∧
            3 * m.toNat < 2 * governors.card + 3) ↔ governors.card ≤ 382) := by
  intro ops
  have hops : AllSteps (step 100) Ready ⟨noGovernors.acc, List.replicate 2 ⟨none⟩, fun _ => none⟩ ops := by
    refine ⟨show 0 < 2 by decide, fun st₁ h₁ => ?_⟩
    obtain rfl := Option.some.inj h₁
    refine ⟨show 0 < 2 by decide, fun st₂ h₂ => ?_⟩
    obtain rfl := Option.some.inj h₂
    refine ⟨show 0 < 2 by decide, fun st₃ h₃ => ?_⟩
    obtain rfl := Option.some.inj h₃
    exact ⟨show 1 < 2 by decide, fun _ _ => trivial⟩
  exact ⟨_, rfl, approval_majority_iff 100 singleStored_noGovernors 2 (fun _ => none) hops rfl
    (show 0 < 2 by decide)⟩

/-- Governors of one height. -/
def manyGovernors : List IneryRegID :=
  (List.finRange 383).map fun i => toLex (7, i.castLE (by decide))

theorem card_manyGovernors : manyGovernors.toFinset.card = 383 := by
  have hinj : Function.Injective fun i : Fin 383 => (toLex (7, i.castLE (by decide)) : IneryRegID) := by
    intro i j h
    have hpair := Prod.mk.inj (toLex.injective h)
    exact Fin.castLE_injective _ hpair.2
  rw [manyGovernors, List.toFinset_card_of_nodup ((List.nodup_finRange 383).map hinj), List.length_map,
    List.length_finRange]

/-- With 383 governors no approval is needed. -/
theorem no_approval_needed :
    ∃ st, run (step 100) noGovernors
        (manyGovernors.map fun governor => .cache 0 (.addGovernor governor)) = some st ∧
      (getGovernors 100 st.acc (st.caches.drop 0)).map (fun r => r.2.card) = some 383 ∧
        (getGovernorApprovalMinCount 100 st.acc (st.caches.drop 0)).map Prod.snd = some 0 := by
  have hlevel : 0 < noGovernors.caches.length := by decide
  obtain ⟨st, hrun, hacc, hi, hstored⟩ := run_addGovernor 100 singleStored_noGovernors hlevel manyGovernors
  have hempty : noGovernors.stored 0 = ∅ := rfl
  obtain ⟨s, hget⟩ := getGovernors_eq 100 hacc hi
  rw [hstored, hempty, Finset.empty_union, inForce_of_nonempty] at hget
  · refine ⟨st, hrun, ?_, ?_⟩
    · rw [hget, Option.map_some, card_manyGovernors]
    · rw [getGovernorApprovalMinCount, hget, Option.map_some, Option.map_some, card_manyGovernors]
      rfl
  · exact Finset.card_pos.mp (by rw [card_manyGovernors]; decide)

end Threshold

end GovernLevels

end Inery
