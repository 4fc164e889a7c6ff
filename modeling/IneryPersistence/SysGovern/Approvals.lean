import IneryPersistence.Cache.Kept
import IneryPersistence.Cdp.Keys
import IneryPersistence.Db.Containers
import IneryPersistence.Block.Serializers

/-!
# The approvals of proposals

`approvals_cache` keeps, for every proposal, the list of the governors that have approved it.

* `setApproval`, `getApprovalCount`, `getApprovalList`: the functions of `InerySysGovernDBCache`;
* `ApprovalOp`, `ApprovalOp.step`: their calls and flushes at each level of a stack;
* `ApprovalLists`, `ApprovalOp.record`: the approvals of each level as plain lists;
* `Approved`: a stack has these lists, and no list names a governor twice; `Approved.step`;
* **`approvals_counted_once`**: after every run, the count of a proposal is that of the governors that approved it.
-/

namespace Inery

open KV

/-! ## Vectors of accounts -/

instance : DbUtil (List IneryRegID) where
  dflt := []
  isEmpty := List.isEmpty
  setEmpty _ := []

instance : LawfulDbUtil (List IneryRegID) := ⟨fun _ => rfl⟩

instance [CompactSize] [Serial IneryRegID] : Serial (List IneryRegID) where
  ser l := CompactSize.write l.length ++ serList l
  unser bytes := (CompactSize.read bytes).bind fun n => unserList n.1 n.2

instance [CompactSize] [LawfulCompactSize] [Serial IneryRegID] [StreamSerial IneryRegID] :
    StreamSerial (List IneryRegID) where
  unser_append l rest := by
    simp only [ser, unser, List.append_assoc, LawfulCompactSize.read_write, Option.bind_some]
    exact unserList_append l rest

/-! ## Functions -/

section Model

variable [CompactSize] [Serial IneryRegID] [Serial Uint256] [DbUtil Uint256] (acc : CDBAccess)

/-- `GetApprovalList`. -/
def getApprovalList (s : CacheStack Uint256 (List IneryRegID)) (proposalId : Uint256) :
    CacheStack Uint256 (List IneryRegID) × Option (List IneryRegID) :=
  CacheStack.getData acc .govnApprovalList s proposalId

/-- `GetApprovalCount`: the size is cast to an `int`. -/
def getApprovalCount (s : CacheStack Uint256 (List IneryRegID)) (proposalId : Uint256) :
    CacheStack Uint256 (List IneryRegID) × Int32 :=
  let r := CacheStack.getData acc .govnApprovalList s proposalId
  (r.1, Int32.ofNat (r.2.getD []).length)

/-- `SetApproval`: the vector is empty when `GetData` finds nothing. -/
def setApproval (log : Option CDBOpLogMap) (s : CacheStack Uint256 (List IneryRegID)) (proposalId : Uint256)
    (governor : IneryRegID) : CacheStack Uint256 (List IneryRegID) × Bool × Option CDBOpLogMap :=
  let r := CacheStack.getData acc .govnApprovalList s proposalId
  if governor ∈ r.2.getD [] then (r.1, false, log)
  else CacheStack.setData acc .govnApprovalList log r.1 proposalId (r.2.getD [] ++ [governor])

/-- The operations on `approvals_cache`. -/
inductive ApprovalOp
  | setApproval (proposalId : Uint256) (governor : IneryRegID)
  | getApprovalCount (proposalId : Uint256)
  | getApprovalList (proposalId : Uint256)
  | flush

/-- An operation of the first cache of a stack. -/
def ApprovalOp.apply (log : Option CDBOpLogMap) (s : CacheStack Uint256 (List IneryRegID)) :
    ApprovalOp → CDBAccess × CacheStack Uint256 (List IneryRegID) × Option CDBOpLogMap
  | setApproval proposalId governor =>
    let r := Inery.setApproval acc log s proposalId governor
    (acc, r.1, r.2.2)
  | getApprovalCount proposalId => (acc, (Inery.getApprovalCount acc s proposalId).1, log)
  | getApprovalList proposalId => (acc, (Inery.getApprovalList acc s proposalId).1, log)
  | flush =>
    let r := CacheStack.flush acc .govnApprovalList s
    (r.1, r.2, log)

/-- The levels of `approvals_cache` over a database. -/
abbrev ApprovalLevels := CacheLevels Uint256 (List IneryRegID)

/-- The approvals that each level has of a proposal. -/
abbrev ApprovalLists := ℕ → Uint256 → List IneryRegID

namespace ApprovalOp

/-- One operation at a level, or what other caches do to the database. -/
def step (st : ApprovalLevels) : LevelOp ApprovalOp → Option ApprovalLevels
  | .cache i op =>
    if i < st.caches.length then
      let r := op.apply st.acc (st.log i) (st.caches.drop i)
      some ⟨r.1, st.caches.take i ++ r.2.1, Function.update st.log i r.2.2⟩
    else none
  | .database acc => some { st with acc := acc }

omit [CompactSize] [Serial IneryRegID] [Serial Uint256] in
/-- The lists after an operation. An approval is seen from its level up, and a flush gives its lists to the level
below; nothing is recorded of the null id. -/
def record (lists : ApprovalLists) : LevelOp ApprovalOp → ApprovalLists
  | .cache i (.setApproval proposalId governor) =>
    if isEmpty proposalId = true ∨ governor ∈ lists i proposalId then lists
    else fun j => if j ≤ i then Function.update (lists j) proposalId (lists i proposalId ++ [governor]) else lists j
  | .cache i .flush => fun j => lists (if j = i + 1 then i else j)
  | _ => lists

/-- The operation on the caches, and on the lists next to them. -/
def stepRecorded (st : ApprovalLevels × ApprovalLists) (op : LevelOp ApprovalOp) :
    Option (ApprovalLevels × ApprovalLists) := (step st.1 op).map fun st' => (st', record st.2 op)

/-- The level exists, no cache above an approval has an entry of the proposal, and other caches leave the records of
the approvals. -/
def Allowed (st : ApprovalLevels × ApprovalLists) : LevelOp ApprovalOp → Prop
  | .cache i (.setApproval proposalId _) =>
    i < st.1.caches.length ∧ ∀ c ∈ st.1.caches.take i, c.mapData.find? proposalId = none
  | .cache i _ => i < st.1.caches.length
  | .database acc => SameRecords .govnApprovalList st.1.acc acc

end ApprovalOp

end Model

/-! ## Steps -/

section Steps

variable [CompactSize] [Serial IneryRegID] [Serial Uint256] [DbUtil Uint256]

/-- The levels have the lists, and no list names a governor twice. -/
structure Approved (n : ℕ) (st : ApprovalLevels × ApprovalLists) : Prop where
  length : st.1.caches.length = n
  lists : ∀ j ≤ n, ∀ proposalId, isEmpty proposalId = false →
    (CacheStack.view st.1.acc .govnApprovalList (st.1.caches.drop j) proposalId).getD [] = st.2 j proposalId
  nodup : ∀ j ≤ n, ∀ proposalId, isEmpty proposalId = false → (st.2 j proposalId).Nodup

variable {n : ℕ} {st : ApprovalLevels × ApprovalLists}

theorem setApproval_eq (acc : CDBAccess) (log : Option CDBOpLogMap) (s : CacheStack Uint256 (List IneryRegID))
    {proposalId : Uint256} (hkey : isEmpty proposalId = false) {l : List IneryRegID}
    (hl : (CacheStack.view acc .govnApprovalList s proposalId).getD [] = l) (governor : IneryRegID) :
    setApproval acc log s proposalId governor =
      if governor ∈ l then ((CacheStack.getData acc .govnApprovalList s proposalId).1, false, log)
      else CacheStack.setData acc .govnApprovalList log (CacheStack.getData acc .govnApprovalList s proposalId).1
        proposalId (l ++ [governor]) := by
  rw [setApproval, CacheStack.getData_snd acc .govnApprovalList hkey, hl]

theorem writes_setApproval (acc : CDBAccess) (log : Option CDBOpLogMap)
    {s : CacheStack Uint256 (List IneryRegID)} {i : ℕ}
    (hi : i < s.length) {proposalId : Uint256} (hkey : isEmpty proposalId = false)
    (hclear : ∀ c ∈ s.take i, c.mapData.find? proposalId = none) {l : List IneryRegID}
    (hl : (CacheStack.view acc .govnApprovalList (s.drop i) proposalId).getD [] = l) {governor : IneryRegID}
    (hmem : governor ∉ l) :
    ∃ t log', setApproval acc log (s.drop i) proposalId governor = (t, true, log') ∧
      CacheStack.Writes acc .govnApprovalList i [(proposalId, some (l ++ [governor]))] s (s.take i ++ t) := by
  have htake : (s.take i).length = i := by
    rw [List.length_take]
    omega
  have hread := CacheStack.writes_getData acc .govnApprovalList hi.le proposalId
  rw [setApproval_eq acc log _ hkey hl, if_neg hmem]
  generalize (CacheStack.getData acc .govnApprovalList (s.drop i) proposalId).1 = t₁ at hread ⊢
  have hdrop : (s.take i ++ t₁).drop i = t₁ := List.drop_left' htake
  have hsame : (s.take i ++ t₁).take i = s.take i := List.take_left' htake
  have hclear' : CacheStack.Clear i [proposalId] (s.take i ++ t₁) := fun c hc key hin => by
    rw [hsame] at hc
    rw [List.mem_singleton.mp hin]
    exact hclear c hc
  obtain ⟨t, old, hset, -, hw⟩ :=
    CacheStack.writes_setData acc .govnApprovalList hkey (hread.length.symm ▸ hi) hclear'
    log (l ++ [governor])
  have hlive : live (some (l ++ [governor])) = some (l ++ [governor]) :=
    live_of_not_isEmpty (by cases l <;> rfl)
  rw [hdrop] at hset
  rw [hsame, hlive] at hw
  refine ⟨t, _, hset, hw.length.trans hread.length, fun j hj => ?_, fun j hj => ?_⟩
  · -- the read moves no view
    have hview : CacheStack.view acc .govnApprovalList ((s.take i ++ t₁).drop j) =
        CacheStack.view acc .govnApprovalList (s.drop j) := hread.upper j hj
    rw [hw.upper j hj, hview]
  · rw [hw.lower j hj, hread.lower j hj]

theorem Approved.same (h : Approved n st) {st' : ApprovalLevels} (hacc : st'.acc = st.1.acc) {i : ℕ}
    (hw : CacheStack.Writes st.1.acc .govnApprovalList i [] st.1.caches st'.caches) : Approved n (st', st.2) := by
  refine ⟨hw.length.trans h.length, fun j hj proposalId hkey => ?_, h.nodup⟩
  have hview : CacheStack.view st.1.acc .govnApprovalList (st'.caches.drop j) =
      CacheStack.view st.1.acc .govnApprovalList (st.1.caches.drop j) := by
    rcases Nat.lt_or_ge i j with hij | hij
    · exact hw.lower j hij
    · exact hw.upper j hij
  rw [hacc, hview]
  exact h.lists j hj proposalId hkey

theorem Approved.put (h : Approved n st) {st' : ApprovalLevels} (hacc : st'.acc = st.1.acc) {i : ℕ} (hi : i ≤ n)
    {proposalId : Uint256} (hkey : isEmpty proposalId = false) {governor : IneryRegID}
    (hmem : governor ∉ st.2 i proposalId)
    (hw : CacheStack.Writes st.1.acc .govnApprovalList i [(proposalId, some (st.2 i proposalId ++ [governor]))]
      st.1.caches st'.caches) :
    Approved n (st', fun j =>
      if j ≤ i then Function.update (st.2 j) proposalId (st.2 i proposalId ++ [governor]) else st.2 j) := by
  refine ⟨hw.length.trans h.length, fun j hj p hp => ?_, fun j hj p hp => ?_⟩ <;> dsimp only
  · rw [hacc]
    rcases Nat.lt_or_ge i j with hij | hij
    · rw [hw.lower j hij, if_neg (Nat.not_le.mpr hij)]
      exact h.lists j hj p hp
    · obtain ⟨hnew, hrest⟩ := hw.single hij
      rw [if_pos hij]
      by_cases hsame : p = proposalId
      · rw [hsame, hnew, Function.update_self]
        rfl
      · rw [hrest p hsame, Function.update_of_ne hsame]
        exact h.lists j hj p hp
  · split_ifs
    · by_cases hsame : p = proposalId
      · rw [hsame, Function.update_self]
        exact (h.nodup i hi proposalId hkey).append (List.nodup_singleton governor)
          (List.disjoint_singleton.mpr hmem)
      · rw [Function.update_of_ne hsame]
        exact h.nodup j hj p hp
    · exact h.nodup j hj p hp

theorem Approved.setApproval (h : Approved n st) {i : ℕ} {proposalId : Uint256} {governor : IneryRegID}
    (hop : ApprovalOp.Allowed st (.cache i (.setApproval proposalId governor))) :
    ∃ st', ApprovalOp.stepRecorded st (.cache i (.setApproval proposalId governor)) = some st' ∧ Approved n st' := by
  obtain ⟨hi, hclear⟩ := hop
  have hin : i ≤ n := h.length ▸ hi.le
  refine ⟨_, by rw [ApprovalOp.stepRecorded, ApprovalOp.step, if_pos hi]; rfl, ?_⟩
  rw [ApprovalOp.apply]
  cases hkey : isEmpty proposalId with
  | true =>
    have hnone : Inery.setApproval st.1.acc (st.1.log i) (st.1.caches.drop i) proposalId governor =
        (st.1.caches.drop i, false, st.1.log i) := by
      rw [Inery.setApproval, CacheStack.getData, if_pos hkey, Option.getD_none, if_neg List.not_mem_nil,
        CacheStack.setData, if_pos hkey]
    rw [hnone, ApprovalOp.record, if_pos (.inl hkey)]
    dsimp only
    rw [List.take_append_drop]
    exact h.same rfl (CacheStack.writes_refl _ _ i _)
  | false =>
    have hlist := h.lists i hin proposalId hkey
    rw [ApprovalOp.record]
    by_cases hmem : governor ∈ st.2 i proposalId
    · rw [setApproval_eq _ _ _ hkey hlist, if_pos hmem, if_pos (.inr hmem)]
      exact h.same rfl (CacheStack.writes_getData st.1.acc .govnApprovalList hi.le proposalId)
    · have hskip : ¬ (isEmpty proposalId = true ∨ governor ∈ st.2 i proposalId) := by
        rw [hkey]
        exact fun hor => hor.elim Bool.false_ne_true hmem
      obtain ⟨t, log', hset, hw⟩ := writes_setApproval st.1.acc (st.1.log i) hi hkey hclear hlist hmem
      rw [if_neg hskip, hset]
      refine h.put ?_ hin hkey hmem ?_
      · rfl
      · exact hw

theorem Approved.flush [LawfulSerial Uint256] [LawfulSerial (List IneryRegID)] (h : Approved n st) {i : ℕ}
    (hi : i < st.1.caches.length) :
    ∃ st', ApprovalOp.stepRecorded st (.cache i .flush) = some st' ∧ Approved n st' := by
  have hlevel : ∀ j, j ≤ n → (if j = i + 1 then i else j) ≤ n := fun j hj => by
    split_ifs
    · exact (h.length ▸ hi).le
    · exact hj
  refine ⟨_, by rw [ApprovalOp.stepRecorded, ApprovalOp.step, if_pos hi]; rfl, ?_, fun j hj p hp => ?_,
    fun j hj p hp => h.nodup _ (hlevel j hj) p hp⟩
  · have hlen := CacheStack.length_flush st.1.acc .govnApprovalList (st.1.caches.drop i)
    rw [ApprovalOp.apply]
    dsimp only
    rw [← h.length, List.length_append, hlen, ← List.length_append, List.take_append_drop]
  · rw [ApprovalOp.apply]
    dsimp only
    rw [CacheStack.view_flush_level st.1.acc .govnApprovalList (genDbKey_injective .govnApprovalList) hi
      (h.length.symm ▸ hj)]
    exact h.lists _ (hlevel j hj) p hp

theorem Approved.step [LawfulSerial Uint256] [LawfulSerial (List IneryRegID)] (h : Approved n st)
    {op : LevelOp ApprovalOp} (hop : ApprovalOp.Allowed st op) :
    ∃ st', ApprovalOp.stepRecorded st op = some st' ∧ Approved n st' := by
  cases op with
  | database acc =>
    refine ⟨_, rfl, h.length, fun j hj p hp => ?_, h.nodup⟩
    dsimp only
    rw [CacheStack.view_of_getData st.1.acc .govnApprovalList (hop.getData _ _)]
    exact h.lists j hj p hp
  | cache i op =>
    cases op with
    | setApproval proposalId governor => exact h.setApproval hop
    | getApprovalCount proposalId | getApprovalList proposalId =>
      have hi : i < st.1.caches.length := hop
      have hread := CacheStack.writes_getData st.1.acc .govnApprovalList hi.le proposalId
      refine ⟨_, by rw [ApprovalOp.stepRecorded, ApprovalOp.step, if_pos hi]; rfl, ?_⟩
      rw [ApprovalOp.apply]
      exact h.same rfl hread
    | flush => exact h.flush hop

/-! ## Runs -/

/-- New caches over a database: every level has the lists that are stored. -/
def newApprovals (acc : CDBAccess) (n : ℕ) (log : ℕ → Option CDBOpLogMap) : ApprovalLevels × ApprovalLists :=
  (⟨acc, List.replicate n ⟨∅, false, 0⟩, log⟩, fun _ proposalId =>
    (CacheStack.view acc .govnApprovalList [] proposalId).getD [])

theorem approved_new {acc : CDBAccess}
    (hacc : ∀ (proposalId : Uint256) (l : List IneryRegID), acc.getData .govnApprovalList proposalId =
      some l → l.Nodup)
    (n : ℕ) (log : ℕ → Option CDBOpLogMap) : Approved n (newApprovals acc n log) := by
  refine ⟨List.length_replicate, fun j _ proposalId _ => ?_, fun j _ proposalId _ => ?_⟩ <;> rw [newApprovals] <;>
    dsimp only
  · have hclear : ∀ c ∈ (List.replicate n (⟨∅, false, 0⟩ : IneryCompositeKVCache Uint256 (List IneryRegID))).drop j,
        c.mapData.find? proposalId = none := fun c hc => by
      rw [List.eq_of_mem_replicate (List.mem_of_mem_drop hc)]
      rfl
    have hempty := CacheStack.view_append_of_clear acc .govnApprovalList hclear []
    rw [List.append_nil] at hempty
    rw [hempty]
  · rw [CacheStack.view, CacheStack.find_nil]
    cases hread : live (acc.getData (V := List IneryRegID) .govnApprovalList proposalId) with
    | none => exact List.nodup_nil
    | some l => exact hacc proposalId l (live_eq_some_iff.mp hread).1

/-- **Approvals are counted once.** After every run of the operations, at any levels over a database whose lists name
no governor twice, every level shows the approvals that were recorded: the count is the number of the governors in
the list, and `SetApproval` succeeds for exactly the others. -/
theorem approvals_counted_once [LawfulSerial Uint256] [LawfulSerial (List IneryRegID)] {acc : CDBAccess}
    (hacc : ∀ (proposalId : Uint256) (l : List IneryRegID), acc.getData .govnApprovalList proposalId =
      some l → l.Nodup)
    (n : ℕ) (log : ℕ → Option CDBOpLogMap) {ops : List (LevelOp ApprovalOp)}
    (hops : AllSteps ApprovalOp.stepRecorded ApprovalOp.Allowed (newApprovals acc n log) ops) :
    ∃ st, run ApprovalOp.stepRecorded (newApprovals acc n log) ops = some st ∧
      ∀ j < n, ∀ proposalId, isEmpty proposalId = false →
        (getApprovalList st.1.acc (st.1.caches.drop j) proposalId).2.getD [] = st.2 j proposalId ∧
        (getApprovalCount st.1.acc (st.1.caches.drop j) proposalId).2 =
          Int32.ofNat (st.2 j proposalId).toFinset.card ∧
        ∀ governor, (setApproval st.1.acc (st.1.log j) (st.1.caches.drop j) proposalId governor).2.1 =
          decide (governor ∉ st.2 j proposalId) := by
  obtain ⟨st, hrun, hst⟩ := run_exists ApprovalOp.stepRecorded (fun _ _ hI hop => Approved.step hI hop)
    (approved_new hacc n log) hops
  refine ⟨st, hrun, fun j hj proposalId hkey => ?_⟩
  have hlist := hst.lists j hj.le proposalId hkey
  refine ⟨?_, ?_, fun governor => ?_⟩
  · rw [getApprovalList, CacheStack.getData_snd _ _ hkey, hlist]
  · rw [getApprovalCount, CacheStack.getData_snd _ _ hkey, hlist,
      List.toFinset_card_of_nodup (hst.nodup j hj.le proposalId hkey)]
  · rw [setApproval_eq _ _ _ hkey hlist]
    by_cases hmem : governor ∈ st.2 j proposalId
    · rw [if_pos hmem, decide_eq_false (not_not.mpr hmem)]
    · have hne : (CacheStack.getData st.1.acc .govnApprovalList (st.1.caches.drop j) proposalId).1 ≠ [] := by
        rw [ne_eq, ← List.length_eq_zero_iff, CacheStack.length_getData, List.length_drop, hst.length]
        omega
      obtain ⟨s', log', hset, -⟩ := CacheStack.setData_spec st.1.acc .govnApprovalList hkey (st.1.log j) hne
        (st.2 j proposalId ++ [governor])
      rw [if_neg hmem, hset, decide_eq_true hmem]

end Steps

section Runs

open BigEndianKeys LittleEndian

/-- The second approval of the first governor fails, and the flush hands the approvals on. -/
theorem approvals_counted_once_two :
    let ops : List (LevelOp ApprovalOp) := [.cache 0 (.setApproval 5 (toLex (7, 1))),
      .cache 0 (.setApproval 5 (toLex (7, 1))), .cache 0 (.setApproval 5 (toLex (8, 1))), .cache 0 .flush]
    ∃ st, run ApprovalOp.stepRecorded (newApprovals ⟨.sysgovern, ∅⟩ 2 fun _ => none) ops = some st ∧
      ∀ j < 2, ∀ proposalId : Uint256, isEmpty proposalId = false →
        (getApprovalList st.1.acc (st.1.caches.drop j) proposalId).2.getD [] = st.2 j proposalId ∧
        (getApprovalCount st.1.acc (st.1.caches.drop j) proposalId).2 =
          Int32.ofNat (st.2 j proposalId).toFinset.card ∧
        ∀ governor, (setApproval st.1.acc (st.1.log j) (st.1.caches.drop j) proposalId governor).2.1 =
          decide (governor ∉ st.2 j proposalId) := by
  intro ops
  have hnone : ∀ (caches : CacheStack Uint256 (List IneryRegID)) (proposalId : Uint256),
      ∀ c ∈ caches.take 0, c.mapData.find? proposalId = none := fun _ _ c hc => by cases hc
  refine approvals_counted_once (fun _ _ h => by cases h) 2 (fun _ => none) ?_
  refine ⟨⟨show 0 < 2 by decide, hnone _ _⟩, fun st₁ h₁ => ?_⟩
  obtain rfl := Option.some.inj h₁
  refine ⟨⟨show 0 < 2 by decide, hnone _ _⟩, fun st₂ h₂ => ?_⟩
  obtain rfl := Option.some.inj h₂
  refine ⟨⟨show 0 < 2 by decide, hnone _ _⟩, fun st₃ h₃ => ?_⟩
  obtain rfl := Option.some.inj h₃
  exact ⟨show 0 < 2 by decide, fun _ _ => trivial⟩

end Runs

end Inery
