import IneryPersistence.Block.Serializers
import IneryPersistence.Cache.Kept

/-!
# The last id of a DEX operator

`IncDexID` reads the last id, adds one to it and stores it. Its guard compares an id of 32 bits with the largest
number of 64 bits.

* `incDexID`, `step`: a call at a level of the stack, a flush of a level, and what other caches do;
* `incDexID_spec`, `lastId_incDexID`, `lastId_flush`: what they leave of the last id at every level;
* `Ordered`, `ordered_run`: no level shows an id above that of the top, which never falls;
* `FreshCall`: a call returns an id above every one that was stored or returned before it;
* **`ids_fresh_iff`**: exactly if no call finds the last id of 32 bits.
-/

namespace Inery

open KV

/-- `IneryVarIntValue<DexID>`, empty when it is 0. -/
structure DexIdValue where
  value : UInt32
deriving DecidableEq

instance : DbUtil DexIdValue := ⟨⟨0⟩, fun v => v.value == 0, fun _ => ⟨0⟩⟩

instance : LawfulDbUtil DexIdValue := ⟨fun _ => rfl⟩

/-- The calls of `operator_last_id_cache`. -/
inductive LastIdOp
  | incDexID
  | flush

/-- The levels of `operator_last_id_cache` over a database. -/
abbrev LastIdLevels := SingleLevels DexIdValue

section Model

variable [Serial DexIdValue]

/-- `IncDexID`: the new id, when the call succeeds. -/
def incDexID (acc : CDBAccess) (log : Option CDBOpLogMap) (s : SimpleStack DexIdValue) :
    Option (SimpleStack DexIdValue × Option CDBOpLogMap × Option UInt32) :=
  (SimpleStack.getData acc .dexOperatorLastId s).bind fun r =>
    let newId := (r.2.getD ⟨0⟩).value
    -- `ULONG_MAX` has 64 bits
    if newId.toNat = 2 ^ 64 - 1 then some (r.1, log, none)
    else (SimpleStack.setData acc .dexOperatorLastId log r.1 ⟨newId + 1⟩).map fun w =>
      (w.1, w.2, some (newId + 1))

/-- An operation on the cache `c` over `base`. -/
def LastIdOp.apply (acc : CDBAccess) (log : Option CDBOpLogMap) (c : InerySimpleKVCache DexIdValue)
    (base : SimpleStack DexIdValue) :
    LastIdOp → Option (CDBAccess × SimpleStack DexIdValue × Option CDBOpLogMap)
  | incDexID => (Inery.incDexID acc log (c :: base)).map fun r => (acc, r.1, r.2.1)
  | flush =>
    let r := SimpleStack.flush acc .dexOperatorLastId (c :: base)
    some (r.1, r.2, log)

namespace LastIdLevels

/-- One operation at a level, or what other caches do to the database. -/
def step (st : LastIdLevels) : LevelOp LastIdOp → Option LastIdLevels
  | .cache i op =>
    match st.caches.drop i with
    | c :: base => (op.apply st.acc (st.log i) c base).map fun r =>
      ⟨r.1, st.caches.take i ++ r.2.1, Function.update st.log i r.2.2⟩
    | [] => none
  | .database acc => some { st with acc := acc }

/-- The level exists, no cache above a call holds an id of its own, and others leave the record. -/
def Ready (st : LastIdLevels) : LevelOp LastIdOp → Prop
  | .cache i .incDexID => i < st.caches.length ∧ ∀ c ∈ st.caches.take i, c.ptrData = none
  | .cache i .flush => i < st.caches.length
  | .database acc => SameRecords .dexOperatorLastId st.acc acc

/-- The last id that a level shows. -/
def lastId (st : LastIdLevels) (i : ℕ) : UInt32 :=
  ((SimpleStack.view st.acc .dexOperatorLastId (st.caches.drop i)).getD ⟨0⟩).value

/-- What a call at a level returns. -/
def returned (st : LastIdLevels) (i : ℕ) : Option UInt32 :=
  (incDexID st.acc (st.log i) (st.caches.drop i)).bind fun r => r.2.2

/-- The id was stored at a level, or returned by a call, in the course of the run `os`. -/
def Issued (st₀ : LastIdLevels) (os : List (LevelOp LastIdOp)) (id : UInt32) : Prop :=
  (∃ os₁ st₁ j, os₁ <+: os ∧ run step st₀ os₁ = some st₁ ∧ lastId st₁ j = id) ∨
    ∃ os₁ st₁ j, os₁ ++ [.cache j .incDexID] <+: os ∧ run step st₀ os₁ = some st₁ ∧ returned st₁ j = some id

/-- **The call** returns false and changes nothing, or an id above every one before. -/
def FreshCall (st₀ : LastIdLevels) (os : List (LevelOp LastIdOp)) (st : LastIdLevels) (i : ℕ) : Prop :=
  ∃ s log o, incDexID st.acc (st.log i) (st.caches.drop i) = some (s, log, o) ∧
    match o with
    | none => log = st.log i ∧ ∀ j, SimpleStack.view st.acc .dexOperatorLastId (s.drop j) =
        SimpleStack.view st.acc .dexOperatorLastId (st.caches.drop (i + j))
    | some id => ∀ id', Issued st₀ os id' → id'.toNat < id.toNat

/-- A call does not find the last id of 32 bits. -/
def NotLast (st : LastIdLevels) : LevelOp LastIdOp → Prop
  | .cache i .incDexID => (st.lastId i).toNat ≠ 2 ^ 32 - 1
  | _ => True

end LastIdLevels

end Model

/-! ## What the operations leave -/

theorem SimpleStack.view_append_of_none {V : Type} [Serial V] [DbUtil V] (acc : CDBAccess) (p : PrefixType)
    {us : SimpleStack V} (h : ∀ c ∈ us, c.ptrData = none) (s : SimpleStack V) :
    view acc p (us ++ s) = view acc p s := by
  induction us with
  | nil => rfl
  | cons c us ih =>
    have hc : c = ⟨none⟩ := by
      rw [← h c List.mem_cons_self]
    rw [List.cons_append, hc]
    exact ih fun c' hc' => h c' (List.mem_cons_of_mem _ hc')

namespace LastIdLevels

variable [Serial DexIdValue] {st : LastIdLevels} {i : ℕ}

theorem lastId_of_none (hi : i < st.caches.length) (h : ∀ c ∈ st.caches.take i, c.ptrData = none) {j : ℕ}
    (hj : j ≤ i) : st.lastId j = st.lastId i := by
  unfold lastId
  conv_lhs => rw [← List.take_append_drop i st.caches]
  rw [List.drop_append_of_le_length (by rw [List.length_take]; omega),
    SimpleStack.view_append_of_none _ _ fun c hc => h c (List.mem_of_mem_drop hc)]

/-- **What a call does**: the guard never holds. -/
theorem incDexID_spec {acc : CDBAccess} (hacc : SimpleStack.SingleStored DexIdValue acc .dexOperatorLastId)
    (log : Option CDBOpLogMap) (c : InerySimpleKVCache DexIdValue) (bs : SimpleStack DexIdValue) :
    ∃ t log', incDexID acc log (c :: bs) =
        some (⟨some ⟨((SimpleStack.view acc .dexOperatorLastId (c :: bs)).getD ⟨0⟩).value + 1⟩⟩ :: t, log',
          some (((SimpleStack.view acc .dexOperatorLastId (c :: bs)).getD ⟨0⟩).value + 1)) ∧
      t.length = bs.length ∧
        ∀ j, SimpleStack.view acc .dexOperatorLastId (t.drop j) =
          SimpleStack.view acc .dexOperatorLastId (bs.drop j) := by
  obtain ⟨s, hget, hset⟩ := SimpleStack.getData_setData_cons hacc log c bs
  obtain ⟨t, log', ht, hlen, hview⟩ :=
    hset ⟨((SimpleStack.view acc .dexOperatorLastId (c :: bs)).getD ⟨0⟩).value + 1⟩
  have hguard : ((SimpleStack.view acc .dexOperatorLastId (c :: bs)).getD ⟨0⟩).value.toNat ≠ 2 ^ 64 - 1 :=
    (lt_trans (UInt32.toNat_lt _) (by decide)).ne
  refine ⟨t, log', ?_, hlen, hview⟩
  rw [incDexID, hget, Option.bind_some]
  dsimp only
  rw [if_neg hguard, ht, Option.map_some]

omit [Serial DexIdValue] in
theorem value_live_some (id : UInt32) : ((live (some (⟨id⟩ : DexIdValue))).getD ⟨0⟩).value = id := by
  cases h : isEmpty (⟨id⟩ : DexIdValue) with
  | true =>
    rw [live_of_isEmpty h]
    exact (eq_of_beq h).symm
  | false => rw [live_of_not_isEmpty h, Option.getD_some]

variable (hacc : SimpleStack.SingleStored DexIdValue st.acc .dexOperatorLastId)

include hacc

theorem lastId_incDexID (hop : st.Ready (.cache i .incDexID)) :
    returned st i = some (st.lastId i + 1) ∧
      ∃ st', step st (.cache i .incDexID) = some st' ∧ st'.acc = st.acc ∧
        (∀ j ≤ i, st'.lastId j = st.lastId i + 1) ∧ ∀ j, i < j → st'.lastId j = st.lastId j := by
  obtain ⟨hi, hnone⟩ := hop
  obtain ⟨c, bs, hdrop⟩ := SimpleStack.exists_drop_eq_cons hi
  obtain ⟨t, log', hinc, -, hview⟩ := incDexID_spec hacc (st.log i) c bs
  have hlen : (st.caches.take i).length = i := by rw [List.length_take, min_eq_left hi.le]
  have hret : returned st i = some (st.lastId i + 1) := by
    unfold returned lastId
    rw [hdrop, hinc, Option.bind_some]
  have hstep : step st (.cache i .incDexID) = some ⟨st.acc, st.caches.take i ++ ⟨some ⟨st.lastId i + 1⟩⟩ :: t,
      Function.update st.log i log'⟩ := by
    unfold lastId
    simp only [step, hdrop, LastIdOp.apply, hinc, Option.map_some]
  refine ⟨hret, _, hstep, rfl, fun j hj => ?_, fun j hj => ?_⟩
  · rw [lastId]
    dsimp only
    rw [List.drop_append_of_le_length (by rw [hlen]; exact hj),
      SimpleStack.view_append_of_none _ _ fun c hc => hnone c (List.mem_of_mem_drop hc)]
    exact value_live_some _
  · obtain ⟨k, rfl⟩ : ∃ k, j = i + (k + 1) := ⟨j - i - 1, by omega⟩
    unfold lastId
    dsimp only
    have hbs : bs.drop k = st.caches.drop (i + (k + 1)) := by
      rw [← List.drop_drop, hdrop, List.drop_succ_cons]
    rw [List.drop_append, List.drop_of_length_le (by rw [hlen]; omega), List.nil_append, hlen,
      show i + (k + 1) - i = k + 1 by omega, List.drop_succ_cons, hview, hbs]

theorem lastId_flush [LawfulSerial DexIdValue] (hi : i < st.caches.length) :
    ∃ st', step st (.cache i .flush) = some st' ∧
      SimpleStack.SingleStored DexIdValue st'.acc .dexOperatorLastId ∧
        ∀ j, ∃ k, (j = 0 → k = 0) ∧ st'.lastId j = st.lastId k := by
  obtain ⟨c, bs, hdrop⟩ := SimpleStack.exists_drop_eq_cons hi
  have hlen : (st.caches.take i).length = i := by rw [List.length_take, min_eq_left hi.le]
  have hsplit : st.caches = st.caches.take i ++ c :: bs := by rw [← hdrop, List.take_append_drop]
  have hstep : step st (.cache i .flush) = some ⟨(SimpleStack.flush st.acc .dexOperatorLastId (c :: bs)).1,
      st.caches.take i ++ (SimpleStack.flush st.acc .dexOperatorLastId (c :: bs)).2,
      Function.update st.log i (st.log i)⟩ := by
    simp only [step, hdrop, LastIdOp.apply, Option.map_some]
  refine ⟨_, hstep, SimpleStack.singleStored_flush st.acc .dexOperatorLastId hacc (c :: bs), fun j => ?_⟩
  unfold lastId
  dsimp only
  rcases Nat.lt_or_ge j i with hj | hj
  · refine ⟨j, id, ?_⟩
    conv_rhs => rw [hsplit]
    rw [List.drop_append_of_le_length (by rw [hlen]; exact hj.le),
      List.drop_append_of_le_length (by rw [hlen]; exact hj.le)]
    obtain ⟨k, hk, hview⟩ := SimpleStack.view_flush_drop st.acc .dexOperatorLastId c bs 0
    rw [hk rfl, List.drop_zero, List.drop_zero] at hview
    rw [SimpleStack.singleView_append _ _ hview]
  · obtain ⟨n, rfl⟩ := Nat.exists_eq_add_of_le hj
    obtain ⟨k, hk, hview⟩ := SimpleStack.view_flush_drop st.acc .dexOperatorLastId c bs n
    refine ⟨i + k, fun h => ?_, ?_⟩
    · rw [hk (by omega)]
      omega
    · rw [List.drop_append, List.drop_of_length_le (by rw [hlen]; omega), List.nil_append, hlen,
        Nat.add_sub_cancel_left, hview, ← List.drop_drop, hdrop]

omit hacc

/-! ## Runs -/

/-- The database holds no empty id, and no level shows an id above that of the top. -/
structure Ordered (st : LastIdLevels) : Prop where
  stored : SimpleStack.SingleStored DexIdValue st.acc .dexOperatorLastId
  le_top : ∀ j, (st.lastId j).toNat ≤ (st.lastId 0).toNat

variable [LawfulSerial DexIdValue]

theorem ordered_step {op : LevelOp LastIdOp} (hst : Ordered st) (hop : st.Ready op ∧ st.NotLast op)
    {st' : LastIdLevels} (h : step st op = some st') :
    Ordered st' ∧ (st.lastId 0).toNat ≤ (st'.lastId 0).toNat := by
  obtain ⟨hready, hlast⟩ := hop
  cases op with
  | database acc =>
    obtain rfl := Option.some.inj h
    have hsame : SameRecords .dexOperatorLastId st.acc acc := hready
    have hsingle := hsame.getSingle DexIdValue
    have hid : ∀ j, lastId { st with acc := acc } j = st.lastId j := fun j => by
      unfold lastId
      rw [SimpleStack.view_of_getSingle st.acc _ hsingle]
    refine ⟨⟨fun v hv => hst.stored v (hsingle ▸ hv), fun j => ?_⟩, (hid 0 ▸ le_rfl)⟩
    rw [hid, hid]
    exact hst.le_top j
  | cache i op =>
    cases op with
    | incDexID =>
      obtain ⟨-, st₁, hstep, hacc, hupper, hlower⟩ := lastId_incDexID hst.stored hready
      obtain rfl : st₁ = st' := Option.some.inj (hstep.symm.trans h)
      have htop := lastId_of_none hready.1 hready.2 (Nat.zero_le i)
      have hnew : (st.lastId i + 1).toNat = (st.lastId i).toNat + 1 := by
        have hlt := UInt32.toNat_lt (st.lastId i)
        have hne : (st.lastId i).toNat ≠ 2 ^ 32 - 1 := hlast
        rw [UInt32.toNat_add]
        exact Nat.mod_eq_of_lt (by rw [UInt32.toNat_one]; omega)
      have hzero := hupper 0 (Nat.zero_le i)
      refine ⟨⟨hacc ▸ hst.stored, fun j => ?_⟩, ?_⟩
      · rcases Nat.lt_or_ge i j with hj | hj
        · rw [hlower j hj, hzero, hnew, ← htop]
          exact (hst.le_top j).trans (Nat.le_succ _)
        · rw [hupper j hj, hzero]
      · rw [hzero, hnew, htop]
        exact Nat.le_succ _
    | flush =>
      obtain ⟨st₁, hstep, hacc, hid⟩ := lastId_flush hst.stored hready
      obtain rfl : st₁ = st' := Option.some.inj (hstep.symm.trans h)
      obtain ⟨k₀, hk₀, htop⟩ := hid 0
      rw [hk₀ rfl] at htop
      refine ⟨⟨hacc, fun j => ?_⟩, htop ▸ le_rfl⟩
      obtain ⟨k, -, hk⟩ := hid j
      rw [hk, htop]
      exact hst.le_top k

/-- **A run** that finds no last id of 32 bits. -/
theorem ordered_run {ops : List (LevelOp LastIdOp)} (hst : Ordered st)
    (hops : AllSteps step (fun st op => st.Ready op ∧ st.NotLast op) st ops) {st' : LastIdLevels}
    (h : run step st ops = some st') : Ordered st' ∧ (st.lastId 0).toNat ≤ (st'.lastId 0).toNat :=
  run_invariant step (I := fun st' => Ordered st' ∧ (st.lastId 0).toNat ≤ (st'.lastId 0).toNat)
    (fun _ _ _ hI hop hstep =>
      ⟨(ordered_step hI.1 hop hstep).1, hI.2.trans (ordered_step hI.1 hop hstep).2⟩) ⟨hst, le_rfl⟩ hops h

omit [LawfulSerial DexIdValue] in
theorem ordered_init {acc : CDBAccess} (hacc : SimpleStack.SingleStored DexIdValue acc .dexOperatorLastId)
    (n : ℕ) (log : ℕ → Option CDBOpLogMap) : Ordered ⟨acc, List.replicate n ⟨none⟩, log⟩ where
  stored := hacc
  le_top j := by
    have hid : ∀ j, lastId ⟨acc, List.replicate n ⟨none⟩, log⟩ j =
        ((SimpleStack.view acc .dexOperatorLastId ([] : SimpleStack DexIdValue)).getD ⟨0⟩).value := by
      intro j
      have hnone : ∀ c ∈ List.replicate (n - j) (⟨none⟩ : InerySimpleKVCache DexIdValue), c.ptrData = none :=
        fun c hc => by rw [List.eq_of_mem_replicate hc]
      have hview := SimpleStack.view_append_of_none acc .dexOperatorLastId hnone []
      rw [List.append_nil] at hview
      unfold lastId
      dsimp only
      rw [List.drop_replicate, hview]
    rw [hid, hid]

theorem singleStored_step {op : LevelOp LastIdOp}
    (hacc : SimpleStack.SingleStored DexIdValue st.acc .dexOperatorLastId) (hop : st.Ready op)
    {st' : LastIdLevels} (h : step st op = some st') :
    SimpleStack.SingleStored DexIdValue st'.acc .dexOperatorLastId := by
  cases op with
  | database acc =>
    obtain rfl := Option.some.inj h
    have hsame : SameRecords .dexOperatorLastId st.acc acc := hop
    exact fun v hv => hacc v (hsame.getSingle DexIdValue ▸ hv)
  | cache i op =>
    cases op with
    | incDexID =>
      obtain ⟨-, st₁, hstep, hacc₁, -, -⟩ := lastId_incDexID hacc hop
      obtain rfl : st₁ = st' := Option.some.inj (hstep.symm.trans h)
      exact hacc₁ ▸ hacc
    | flush =>
      obtain ⟨st₁, hstep, hacc₁, -⟩ := lastId_flush hacc hop
      obtain rfl : st₁ = st' := Option.some.inj (hstep.symm.trans h)
      exact hacc₁

theorem issued_le {os : List (LevelOp LastIdOp)} (hst : Ordered st)
    (hos : AllSteps step (fun st op => st.Ready op ∧ st.NotLast op) st os) {st' : LastIdLevels}
    (h : run step st os = some st') {id : UInt32} (hid : Issued st os id) :
    id.toNat ≤ (st'.lastId 0).toNat := by
  have hstored : ∀ os₁ st₁ j, os₁ <+: os → run step st os₁ = some st₁ →
      (lastId st₁ j).toNat ≤ (st'.lastId 0).toNat := by
    rintro os₁ st₁ j ⟨t, rfl⟩ hrun
    rw [run_append, hrun, Option.bind_some] at h
    obtain ⟨hfirst, hrest⟩ := (allSteps_append step st os₁ t).mp hos
    have hst₁ := (ordered_run hst hfirst hrun).1
    exact (hst₁.le_top j).trans (ordered_run hst₁ (hrest st₁ hrun) h).2
  rcases hid with ⟨os₁, st₁, j, hpre, hrun, rfl⟩ | ⟨os₁, st₁, j, hpre, hrun, hret⟩
  · exact hstored os₁ st₁ j hpre hrun
  · -- the call has stored what it returned
    have hcall := (allSteps_iff_run step st os).mp hos os₁ _ hpre st₁ hrun
    have hfirst := allSteps_part step ((List.prefix_append os₁ _).trans hpre) hos
    obtain ⟨hret', st₂, hstep, -, hupper, -⟩ := lastId_incDexID (ordered_run hst hfirst hrun).1.stored hcall.1
    obtain rfl : st₁.lastId j + 1 = id := Option.some.inj (hret'.symm.trans hret)
    have hafter : run step st (os₁ ++ [.cache j .incDexID]) = some st₂ := by
      rw [run_append, hrun, Option.bind_some, run_cons, hstep, Option.bind_some, run_nil]
    have hle := hstored _ st₂ j hpre hafter
    rwa [hupper j le_rfl] at hle

/-- **Ids of DEX operators are never used again** exactly if no call finds the last id of 32 bits. From any
stored last id, with empty caches over it, every call of a run returns false and changes nothing or returns an
id above every one that was stored or returned before. -/
theorem ids_fresh_iff {acc : CDBAccess} (hacc : SimpleStack.SingleStored DexIdValue acc .dexOperatorLastId)
    (n : ℕ) (log : ℕ → Option CDBOpLogMap) {ops : List (LevelOp LastIdOp)}
    (hops : AllSteps step Ready ⟨acc, List.replicate n ⟨none⟩, log⟩ ops) :
    (∀ os i, os ++ [.cache i .incDexID] <+: ops → ∀ st,
        run step ⟨acc, List.replicate n ⟨none⟩, log⟩ os = some st →
          FreshCall ⟨acc, List.replicate n ⟨none⟩, log⟩ os st i) ↔
      AllSteps step NotLast ⟨acc, List.replicate n ⟨none⟩, log⟩ ops := by
  have hready := (allSteps_iff_run step _ ops).mp hops
  constructor
  · intro hfresh
    refine (allSteps_iff_run step _ ops).mpr fun os op hpre st hrun => ?_
    cases op with
    | database acc => trivial
    | cache i op =>
      cases op with
      | flush => trivial
      | incDexID =>
        have hstored : SimpleStack.SingleStored DexIdValue st.acc .dexOperatorLastId :=
          run_invariant step (I := fun st => SimpleStack.SingleStored DexIdValue st.acc .dexOperatorLastId)
            (fun _ _ _ hI hop hstep => singleStored_step hI hop hstep) hacc
            (allSteps_part step ((List.prefix_append os _).trans hpre) hops) hrun
        obtain ⟨hret, -⟩ := lastId_incDexID hstored (hready os _ hpre st hrun)
        obtain ⟨s, log', o, hinc, hcall⟩ := hfresh os i hpre st hrun
        unfold returned at hret
        rw [hinc, Option.bind_some] at hret
        obtain rfl : o = some (st.lastId i + 1) := hret
        have hlt := hcall (st.lastId i) (.inl ⟨os, st, i, List.prefix_rfl, hrun, rfl⟩)
        intro hlast
        rw [UInt32.toNat_add, hlast] at hlt
        exact absurd hlt (by decide)
  · intro hlast os i hpre st hrun
    have hall := allSteps_and step hops hlast
    have hos : AllSteps step (fun st op => st.Ready op ∧ st.NotLast op) ⟨acc, List.replicate n ⟨none⟩, log⟩ os :=
      allSteps_part step ((List.prefix_append os _).trans hpre) hall
    have hop := (allSteps_iff_run step _ ops).mp hall os _ hpre st hrun
    have hst := (ordered_run (ordered_init hacc n log) hos hrun).1
    obtain ⟨c, bs, hdrop⟩ := SimpleStack.exists_drop_eq_cons hop.1.1
    obtain ⟨t, log', hinc, -, -⟩ := incDexID_spec hst.stored (st.log i) c bs
    rw [← hdrop] at hinc
    refine ⟨_, log', _, hinc, fun id' hid' => ?_⟩
    have hle := issued_le (ordered_init hacc n log) hos hrun hid'
    rw [lastId_of_none hop.1.1 hop.1.2 (Nat.zero_le i)] at hle
    have hlt := UInt32.toNat_lt (st.lastId i)
    have hne : (st.lastId i).toNat ≠ 2 ^ 32 - 1 := hop.2
    show id'.toNat < (st.lastId i + 1).toNat
    rw [UInt32.toNat_add, UInt32.toNat_one]
    omega

end LastIdLevels

/-! ## Concrete runs -/

namespace VarIntId

open LittleEndian

scoped instance : Serial DexIdValue where
  ser v := VarInt.write v.value.toNat
  unser bytes := (VarInt.read bytes).map fun r => (⟨UInt32.ofNat r.1.toNat⟩, r.2)

scoped instance : LawfulSerial DexIdValue where
  unser_ser v := by
    have hread := LawfulVarInt.read_write v.value.toNat [] (Int.natCast_nonneg _)
    rw [List.append_nil] at hread
    change (VarInt.read (VarInt.write v.value.toNat)).map _ = _
    rw [hread]
    simp

end VarIntId

namespace LastIdLevels

section Runs

open VarIntId

/-- A database with a last id, as an earlier flush has left it. -/
def withLastId (id : UInt32) : CDBAccess :=
  CDBAccess.writeSingle ⟨.dex, ∅⟩ .dexOperatorLastId (⟨id⟩ : DexIdValue)

theorem singleStored_withLastId (id : UInt32) :
    SimpleStack.SingleStored DexIdValue (withLastId id) .dexOperatorLastId :=
  SimpleStack.singleStored_writeSingle _ _ _

/-- Two calls, a flush between them. -/
theorem ids_fresh_iff_two :
    let ops : List (LevelOp LastIdOp) := [.cache 0 .incDexID, .cache 0 .flush, .cache 1 .incDexID]
    AllSteps step NotLast ⟨withLastId 7, List.replicate 2 ⟨none⟩, fun _ => none⟩ ops ∧
      ∀ os i, os ++ [.cache i .incDexID] <+: ops → ∀ st,
        run step ⟨withLastId 7, List.replicate 2 ⟨none⟩, fun _ => none⟩ os = some st →
          FreshCall ⟨withLastId 7, List.replicate 2 ⟨none⟩, fun _ => none⟩ os st i := by
  intro ops
  have hops : AllSteps step Ready ⟨withLastId 7, List.replicate 2 ⟨none⟩, fun _ => none⟩ ops := by
    refine ⟨⟨by decide, by decide⟩, fun st₁ h₁ => ?_⟩
    obtain rfl := Option.some.inj h₁
    refine ⟨show 0 < 2 by decide, fun st₂ h₂ => ?_⟩
    obtain rfl := Option.some.inj h₂
    exact ⟨⟨by decide, by decide⟩, fun _ _ => trivial⟩
  have hlast : AllSteps step NotLast ⟨withLastId 7, List.replicate 2 ⟨none⟩, fun _ => none⟩ ops := by
    refine ⟨show (lastId _ 0).toNat ≠ 2 ^ 32 - 1 by decide +kernel, fun st₁ h₁ => ?_⟩
    obtain rfl := Option.some.inj h₁
    refine ⟨trivial, fun st₂ h₂ => ?_⟩
    obtain rfl := Option.some.inj h₂
    exact ⟨show (lastId _ 1).toNat ≠ 2 ^ 32 - 1 by decide +kernel, fun _ _ => trivial⟩
  exact ⟨hlast, (ids_fresh_iff (singleStored_withLastId 7) 2 (fun _ => none) hops).mpr hlast⟩

/-- After the last id of 32 bits, a call succeeds with the id of the main operator. -/
theorem id_starts_again :
    let st : LastIdLevels := ⟨withLastId 4294967295, [⟨none⟩], fun _ => none⟩
    returned st 0 = some 0 ∧ lastId st 0 = 4294967295 ∧ ¬ FreshCall st [] st 0 := by
  intro st
  have hret : returned st 0 = some 0 := by decide +kernel
  have hlast : lastId st 0 = 4294967295 := by decide +kernel
  refine ⟨hret, hlast, fun h => ?_⟩
  obtain ⟨s, log, o, hinc, hcall⟩ := h
  unfold returned at hret
  rw [hinc, Option.bind_some] at hret
  obtain rfl : o = some 0 := hret
  have hlt := hcall (lastId st 0) (.inl ⟨[], st, 0, List.prefix_rfl, rfl, rfl⟩)
  rw [hlast] at hlt
  exact absurd hlt (by decide)

end Runs

end LastIdLevels

end Inery
