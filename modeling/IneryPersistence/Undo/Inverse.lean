import IneryPersistence.Undo.Execute

/-!
# Block undo is the inverse of block execution

* `Logging.run`, `executeTx_undoes`: every transaction leaves a log that leads back;
* `undoMember_composite`, `undoMember_simple`, `undoTx_entries`: replaying such a log;
* `BlockUndoes`, `executeBlock_undoes`, `execute_undoes`: the transactions of a block;
* **`execute_inverts_executeBlock`**: on the wrapper itself, and on a new one over the flushed base.
-/

namespace Inery

open KV

namespace CCacheWrapper

variable {Key Val : PrefixType → Type} [∀ p, LinearOrder (Key p)] [∀ p, Serial (Key p)]
  [∀ p, DbUtil (Key p)] [∀ p, Serial (Val p)] [∀ p, DbUtil (Val p)]

/-! ## Execution -/

section Execution

variable [∀ p, LawfulDbUtil (Val p)]

theorem Logging.run {w₀ w : CCacheWrapper Key Val} (hdb : w.Stored) (h : Logging w₀ w)
    {ops : List (WrapperOp Key Val)} (hops : ∀ op ∈ ops, op.Valid) :
    ∃ w', run step w ops = some w' ∧ Logging w₀ w' ∧ w'.db = w.db := by
  induction ops generalizing w with
  | nil => exact ⟨w, rfl, h, rfl⟩
  | cons op ops ih =>
    obtain ⟨w₁, hstep, h₁, hdb₁⟩ := step_logged hdb h (hops op List.mem_cons_self)
    have hstored : w₁.Stored := by
      intro p
      rw [dbAccess, hdb₁]
      exact hdb p
    obtain ⟨w', hrun, h', hdb'⟩ := ih hstored h₁ fun op' hop => hops op' (List.mem_cons_of_mem _ hop)
    exact ⟨w', by rw [run_cons, hstep]; exact hrun, h', hdb'.trans hdb₁⟩

/-- **A transaction** goes through, and leaves a log that leads back. -/
theorem executeTx_undoes {w : CCacheWrapper Key Val} (hdb : w.Stored) (undo : IneryBlockUndo)
    {tx : Tx Key Val} (htx : ∀ op ∈ tx.2, op.Valid) :
    ∃ w' m, executeTx (w, undo) tx = some (w', undo ++ [⟨tx.1, m⟩]) ∧ TxUndoes m w w' ∧
      w'.db = w.db := by
  have hstart : Logging w w.setDbOpLogMap := by
    refine ⟨fun p hp => ?_, (txUndoes_empty w).congr fun _ _ => ⟨fun _ => rfl, fun _ => rfl⟩⟩
    simp only [setDbOpLogMap, decide_eq_true ((mem_logged p).mpr hp), Bool.true_or]
  obtain ⟨w', hrun, h, hdb'⟩ := hstart.run (w := w.setDbOpLogMap) hdb htx
  refine ⟨w'.clearDbOpLogMap, w'.dbOpLogMap, ?_, ?_, hdb'⟩
  · rw [executeTx, hrun]
    rfl
  · exact h.undoes.congr fun _ _ => ⟨fun _ => rfl, fun _ => rfl⟩

end Execution

/-! ## Replay -/

section Replay

variable [∀ p, LawfulSerial (Key p)] [∀ p, LawfulSerial (Val p)]

omit [∀ p, DbUtil (Key p)] in
theorem undoMember_composite (w : CCacheWrapper Key Val) {p : PrefixType} (hp : p.isSimple = false)
    (L : List (Key p × Val p)) : ∃ w', undoMember w p (L.map compositeLog) = some w' ∧
      w'.view p = restore (L.map fun e => (e.1, live (some e.2))) (w.view p) ∧
        ∀ q, q ≠ p → AgreeAt q w w' := by
  obtain ⟨c, hc, hview⟩ := view_undoDataList (w.dbAccess p) p (w.compositeBase p) L (w.composite p)
  refine ⟨w.setComposite p (c :: w.compositeBase p), ?_, ?_, fun q hq => agreeAt_setComposite hq _⟩
  · simp [undoMember, hp, hc]
  · rw [view_setComposite, hview]
    rfl

omit [∀ p, DbUtil (Key p)] [∀ p, LawfulSerial (Key p)] in
theorem undoMember_simple (w : CCacheWrapper Key Val) {p : PrefixType} (hp : p.isSimple = true)
    (L : List (Val p)) : ∃ w', undoMember w p (L.map singleLog) = some w' ∧
      ((fun _ : Unit => w'.singleView p) =
        restore (L.map fun v => ((), live (some v))) fun _ => w.singleView p) ∧
        ∀ q, q ≠ p → AgreeAt q w w' := by
  obtain ⟨c, hc, hview⟩ := view_undoDataList_single (w.dbAccess p) p (w.simpleBase p) L (w.simple p)
  refine ⟨w.setSimple p (c :: w.simpleBase p), ?_, ?_, fun q hq => agreeAt_setSimple hq _⟩
  · simp [undoMember, hp, hc]
  · rw [singleView_setSimple, hview]
    rfl

/-- The entries of a log map are logs of members of their kind. -/
def Decodes (Key Val : PrefixType → Type) [∀ p, Serial (Key p)] [∀ p, Serial (Val p)]
    (l : List (Bytes × List CDbOpLog)) : Prop :=
  ∀ e ∈ l, ∃ p ∈ members, e.1 = getKeyPrefix p ∧
    (p.isSimple = false → ∃ L : List (Key p × Val p), e.2 = L.map compositeLog) ∧
    (p.isSimple = true → ∃ L : List (Val p), e.2 = L.map singleLog)

/-- The log of a member puts the views of `w` back to those of `w'`. -/
def Restores (l : List (Bytes × List CDbOpLog)) (w w' : CCacheWrapper Key Val) : Prop :=
  ∀ p ∈ members,
    (p.isSimple = false → ∀ L : List (Key p × Val p),
      (lookup (getKeyPrefix p) l).getD [] = L.map compositeLog →
        w'.view p = restore (L.map fun e => (e.1, live (some e.2))) (w.view p)) ∧
    (p.isSimple = true → ∀ L : List (Val p),
      (lookup (getKeyPrefix p) l).getD [] = L.map singleLog →
        (fun _ : Unit => w'.singleView p) =
          restore (L.map fun v => ((), live (some v))) fun _ => w.singleView p)

omit [∀ p, DbUtil (Key p)] in
theorem undoMember_restores (w : CCacheWrapper Key Val) {p : PrefixType} (hp : p ∈ members)
    {logs : List CDbOpLog}
    (hc : p.isSimple = false → ∃ L : List (Key p × Val p), logs = L.map compositeLog)
    (hs : p.isSimple = true → ∃ L : List (Val p), logs = L.map singleLog) :
    ∃ w', undoMember w p logs = some w' ∧ Restores [(getKeyPrefix p, logs)] w w' := by
  have hother : ∀ (w' : CCacheWrapper Key Val) (q : PrefixType), q ∈ members → q ≠ p →
      lookup (getKeyPrefix q) [(getKeyPrefix p, logs)] = none := by
    intro w' q hq hqp
    rw [lookup_cons, if_neg fun e => hqp (getKeyPrefix_injective (members_inUse q hq)
      (members_inUse p hp) e)]
    rfl
  cases hkind : p.isSimple with
  | false =>
    obtain ⟨L₀, rfl⟩ := hc hkind
    obtain ⟨w', hundo, hview, hagree⟩ := undoMember_composite w hkind L₀
    refine ⟨w', hundo, fun q hq => ⟨fun _ L hL => ?_, fun hqs L hL => ?_⟩⟩
    · by_cases hqp : q = p
      · subst hqp
        rw [lookup_cons, if_pos rfl, Option.getD_some] at hL
        rw [hview, compositeLog_injective.list_map hL]
      · rw [hother w' q hq hqp] at hL
        obtain rfl : L = [] := List.map_eq_nil_iff.mp hL.symm
        exact (hagree q hqp).view
    · have hqp : q ≠ p := fun e => by simp [e, hkind] at hqs
      rw [hother w' q hq hqp] at hL
      obtain rfl : L = [] := List.map_eq_nil_iff.mp hL.symm
      exact funext fun _ => (hagree q hqp).singleView
  | true =>
    obtain ⟨L₀, rfl⟩ := hs hkind
    obtain ⟨w', hundo, hview, hagree⟩ := undoMember_simple w hkind L₀
    refine ⟨w', hundo, fun q hq => ⟨fun hqs L hL => ?_, fun _ L hL => ?_⟩⟩
    · have hqp : q ≠ p := fun e => by simp [e, hkind] at hqs
      rw [hother w' q hq hqp] at hL
      obtain rfl : L = [] := List.map_eq_nil_iff.mp hL.symm
      exact (hagree q hqp).view
    · by_cases hqp : q = p
      · subst hqp
        rw [lookup_cons, if_pos rfl, Option.getD_some] at hL
        rw [hview, singleLog_injective.list_map hL]
      · rw [hother w' q hq hqp] at hL
        obtain rfl : L = [] := List.map_eq_nil_iff.mp hL.symm
        exact funext fun _ => (hagree q hqp).singleView

omit [∀ p, DbUtil (Key p)] [∀ p, LawfulSerial (Key p)] [∀ p, LawfulSerial (Val p)] in
theorem Restores.cons {w w₁ w' : CCacheWrapper Key Val} {p : PrefixType} (hp : p ∈ members)
    {logs : List CDbOpLog} {l : List (Bytes × List CDbOpLog)} (hl : getKeyPrefix p ∉ l.map Prod.fst)
    (h₁ : Restores [(getKeyPrefix p, logs)] w w₁) (h : Restores l w₁ w') :
    Restores ((getKeyPrefix p, logs) :: l) w w' := by
  have hnone : lookup (getKeyPrefix p) l = none :=
    lookup_eq_none fun e he heq => hl (List.mem_map.mpr ⟨e, he, heq.symm⟩)
  intro q hq
  by_cases hqp : q = p
  · subst hqp
    refine ⟨fun hs L hL => ?_, fun hs L hL => ?_⟩
    · rw [((h q hq).1 hs [] (by rw [hnone]; rfl)), ((h₁ q hq).1 hs L (by simpa [lookup_cons] using hL))]
      rfl
    · rw [((h q hq).2 hs [] (by rw [hnone]; rfl)), ((h₁ q hq).2 hs L (by simpa [lookup_cons] using hL))]
      rfl
  · have hne : getKeyPrefix q ≠ getKeyPrefix p := fun e =>
      hqp (getKeyPrefix_injective (members_inUse q hq) (members_inUse p hp) e)
    refine ⟨fun hs L hL => ?_, fun hs L hL => ?_⟩
    · rw [lookup_cons, if_neg hne] at hL
      rw [(h q hq).1 hs L hL, (h₁ q hq).1 hs [] (by rw [lookup_cons, if_neg hne]; rfl)]
      rfl
    · rw [lookup_cons, if_neg hne] at hL
      rw [(h q hq).2 hs L hL, (h₁ q hq).2 hs [] (by rw [lookup_cons, if_neg hne]; rfl)]
      rfl

omit [∀ p, DbUtil (Key p)] [∀ p, DbUtil (Val p)] [∀ p, LawfulSerial (Key p)]
  [∀ p, LawfulSerial (Val p)] in
theorem undoTx_cons (w : CCacheWrapper Key Val) {p : PrefixType} (hp : p ∈ members)
    (logs : List CDbOpLog) (rest : List (Bytes × List CDbOpLog)) :
    undoTx w ((getKeyPrefix p, logs) :: rest) =
      (undoMember w p logs).bind fun w' => undoTx w' rest := by
  have huse := members_inUse p hp
  rw [undoTx]
  simp only [parseKeyPrefixType_getKeyPrefix huse]
  rw [if_neg huse.1, if_neg (not_not.mpr ((mem_undoable p).mpr hp))]

omit [∀ p, DbUtil (Key p)] in
theorem undoTx_entries {l : List (Bytes × List CDbOpLog)} (hl : (l.map Prod.fst).Nodup)
    (hdec : Decodes Key Val l) (w : CCacheWrapper Key Val) :
    ∃ w', undoTx w l = some (true, w') ∧ Restores l w w' := by
  induction l generalizing w with
  | nil =>
    refine ⟨w, rfl, fun p _ => ⟨fun _ L hL => ?_, fun _ L hL => ?_⟩⟩
    · obtain rfl : L = [] := List.map_eq_nil_iff.mp hL.symm
      rfl
    · obtain rfl : L = [] := List.map_eq_nil_iff.mp hL.symm
      rfl
  | cons e l ih =>
    obtain ⟨key, logs⟩ := e
    obtain ⟨p, hp, hkey, hc, hs⟩ := hdec _ List.mem_cons_self
    obtain rfl : key = getKeyPrefix p := hkey
    obtain ⟨hnot, hl⟩ := List.nodup_cons.mp hl
    obtain ⟨w₁, hundo, h₁⟩ := undoMember_restores w hp hc hs
    obtain ⟨w', hrest, h'⟩ := ih hl (fun e he => hdec e (List.mem_cons_of_mem _ he)) w₁
    refine ⟨w', ?_, h₁.cons hp hnot h'⟩
    rw [undoTx_cons w hp, hundo]
    exact hrest

omit [∀ p, DbUtil (Key p)] in
theorem undoTx_undoes {m : CDBOpLogMap} {w₀ w w' : CCacheWrapper Key Val} (h : TxUndoes m w₀ w)
    (hw : SameViews w w') : ∃ w'', undoTx w' m.entries = some (true, w'') ∧ SameViews w₀ w'' := by
  have h' := h.congr hw
  have hdec : Decodes Key Val m.entries := by
    rintro ⟨key, logs⟩ he
    obtain ⟨p, hp, hkey⟩ := h.keys _ he
    obtain rfl : key = getKeyPrefix p := hkey
    have hlogs : m.logs p = logs := by
      rw [CDBOpLogMap.logs, SortedMap.find?_eq_some_iff.mpr he]
      rfl
    refine ⟨p, hp, rfl, fun hs => ?_, fun hs => ?_⟩
    · obtain ⟨L, hL, -⟩ := h.composite p hp hs
      exact ⟨L, hlogs.symm.trans hL⟩
    · obtain ⟨L, hL, -⟩ := h.simple p hp hs
      exact ⟨L, hlogs.symm.trans hL⟩
  obtain ⟨w'', hundo, hr⟩ := undoTx_entries m.ascending.nodup_keys hdec w'
  refine ⟨w'', hundo, fun p hp => ⟨fun hs => ?_, fun hs => ?_⟩⟩
  · obtain ⟨L, hL, hrestore⟩ := h'.composite p hp hs
    rw [(hr p hp).1 hs L hL, hrestore]
  · obtain ⟨L, hL, hrestore⟩ := h'.simple p hp hs
    exact congrFun (((hr p hp).2 hs L hL).trans hrestore) ()

end Replay

/-! ## The block -/

section Block

/-- The undo records lead, transaction by transaction, from the views of `w` back to those of `w₀`. -/
inductive BlockUndoes (w₀ : CCacheWrapper Key Val) : IneryBlockUndo → CCacheWrapper Key Val → Prop
  | nil : BlockUndoes w₀ [] w₀
  | snoc {undo : IneryBlockUndo} {w w' : CCacheWrapper Key Val} {m : CDBOpLogMap} (txid : Bytes) :
    BlockUndoes w₀ undo w → TxUndoes m w w' → BlockUndoes w₀ (undo ++ [⟨txid, m⟩]) w'

theorem executeBlock_undoes [∀ p, LawfulDbUtil (Val p)] {w : CCacheWrapper Key Val} (hdb : w.Stored)
    {txs : List (Tx Key Val)} (htxs : ∀ tx ∈ txs, ∀ op ∈ tx.2, op.Valid) :
    ∃ w' undo, executeBlock w txs = some (w', undo) ∧ BlockUndoes w undo w' := by
  have key : ∀ (txs : List (Tx Key Val)) (w₁ : CCacheWrapper Key Val) (undo : IneryBlockUndo),
      (∀ tx ∈ txs, ∀ op ∈ tx.2, op.Valid) → w₁.Stored → BlockUndoes w undo w₁ →
        ∃ w' undo', run executeTx (w₁, undo) txs = some (w', undo') ∧ BlockUndoes w undo' w' := by
    intro txs
    induction txs with
    | nil => exact fun w₁ undo _ _ h => ⟨w₁, undo, rfl, h⟩
    | cons tx txs ih =>
      intro w₁ undo hops hstored h
      obtain ⟨w₂, m, htx, hm, hdb₂⟩ := executeTx_undoes hstored undo (hops tx List.mem_cons_self)
      have hstored₂ : w₂.Stored := by
        intro p
        rw [dbAccess, hdb₂]
        exact hstored p
      obtain ⟨w', undo', hrun, h'⟩ := ih w₂ _ (fun tx' h => hops tx' (List.mem_cons_of_mem _ h))
        hstored₂ (h.snoc tx.1 hm)
      exact ⟨w', undo', by rw [run_cons, htx]; exact hrun, h'⟩
  exact key txs w [] htxs hdb .nil

variable [∀ p, LawfulSerial (Key p)] [∀ p, LawfulSerial (Val p)]

omit [∀ p, DbUtil (Key p)] in
/-- **Undoing a block**, from any wrapper with the views the block left. -/
theorem execute_undoes {w₀ w w' : CCacheWrapper Key Val} {undo : IneryBlockUndo}
    (h : BlockUndoes w₀ undo w) (hw : SameViews w w') :
    ∃ w'', execute w' undo = some (true, w'') ∧ SameViews w₀ w'' := by
  induction h generalizing w' with
  | nil => exact ⟨w', rfl, hw⟩
  | snoc txid h hm ih =>
    obtain ⟨w₁, hundo, h₁⟩ := undoTx_undoes hm hw
    obtain ⟨w'', hrest, h''⟩ := ih h₁
    refine ⟨w'', ?_, h''⟩
    rw [execute, List.reverse_append, List.reverse_singleton, List.singleton_append, undoTxs, hundo]
    exact hrest

omit [∀ p, DbUtil (Key p)] [∀ p, LawfulSerial (Key p)] [∀ p, LawfulSerial (Val p)] in
/-- An empty cache over the flushed base has the view of the member that was flushed. -/
theorem FlushedAt.view_override {w w' : CCacheWrapper Key Val} {p : PrefixType} (h : FlushedAt p w w')
    (hs : p.isSimple = false) {c : IneryCompositeKVCache (Key p) (Val p)} (hc : c.mapData = ∅) :
    CacheStack.view (w'.dbAccess p) p (c :: w'.compositeBase p) = w.view p := by
  rw [← (h.composite hs).2]
  funext key
  exact CacheStack.view_cons_of_none _ p (by rw [hc]; rfl)

omit [∀ p, DbUtil (Key p)] [∀ p, LawfulSerial (Key p)] [∀ p, LawfulSerial (Val p)] in
theorem FlushedAt.single_override {w w' : CCacheWrapper Key Val} {p : PrefixType} (h : FlushedAt p w w')
    (hs : p.isSimple = true) {c : InerySimpleKVCache (Val p)} (hc : c.ptrData = none) :
    SimpleStack.view (w'.dbAccess p) p (c :: w'.simpleBase p) = w.singleView p := by
  rw [← (h.simple hs).2, SimpleStack.view, SimpleStack.find_cons, hc]
  rfl

omit [∀ p, DbUtil (Key p)] [∀ p, LawfulSerial (Key p)] [∀ p, LawfulSerial (Val p)] in
theorem sameViews_newOver {w w' : CCacheWrapper Key Val} (h : ∀ p ∈ members, FlushedAt p w w') :
    SameViews w w'.newOver := fun p hp =>
  ⟨fun hs => (h p hp).view_override hs (c := ⟨∅, false, 0⟩) rfl,
    fun hs => (h p hp).single_override hs (c := ⟨none⟩) rfl⟩

omit [∀ p, DbUtil (Key p)] [∀ p, LawfulSerial (Key p)] [∀ p, LawfulSerial (Val p)] in
theorem sameViews_flushed {w w' : CCacheWrapper Key Val} (h : ∀ p ∈ members, FlushedAt p w w') :
    SameViews w w' := fun p hp =>
  ⟨fun hs => (h p hp).view_override hs ((h p hp).composite hs).1,
    fun hs => (h p hp).single_override hs ((h p hp).simple hs).1⟩

omit [∀ p, DbUtil (Key p)] [∀ p, LawfulSerial (Key p)] [∀ p, LawfulSerial (Val p)] in
theorem SameViews.trans {w w' w'' : CCacheWrapper Key Val} (h : SameViews w w')
    (h' : SameViews w' w'') : SameViews w w'' := fun p hp =>
  ⟨fun hs => ((h' p hp).1 hs).trans ((h p hp).1 hs), fun hs => ((h' p hp).2 hs).trans ((h p hp).2 hs)⟩

/-- **Undo is the inverse of execution.** From any wrapper, over databases as the assertion of
`GetDataPtr` wants them, and for any transactions: the block goes through, and `Execute` with its
undo records returns true and gives every member the view it had before the block. It does so on
the wrapper itself, and, when that has been flushed, on a new wrapper over the same base; after the
new one has been flushed too, it and the members of the first wrapper have those views. -/
theorem execute_inverts_executeBlock [∀ p, LawfulDbUtil (Val p)] (w : CCacheWrapper Key Val)
    (hdb : w.Stored) (txs : List (Tx Key Val)) (htxs : ∀ tx ∈ txs, ∀ op ∈ tx.2, op.Valid) :
    ∃ w₁ blockUndo, executeBlock w txs = some (w₁, blockUndo) ∧
      (∃ w₂, execute w₁ blockUndo = some (true, w₂) ∧ SameViews w w₂) ∧
      ∃ w₂, execute w₁.flush.newOver blockUndo = some (true, w₂) ∧ SameViews w w₂ ∧
        SameViews w w₂.flush ∧ ∀ p ∈ members,
          (p.isSimple = false → CacheStack.view (w₂.flush.dbAccess p) p
            (w₁.flush.composite p :: w₂.flush.compositeBase p) = w.view p) ∧
          (p.isSimple = true → SimpleStack.view (w₂.flush.dbAccess p) p
            (w₁.flush.simple p :: w₂.flush.simpleBase p) = w.singleView p) := by
  obtain ⟨w₁, undo, hexec, hundo⟩ := executeBlock_undoes hdb htxs
  have hflush₁ : ∀ p ∈ members, FlushedAt p w₁ w₁.flush := fun p hp => flushedAt_flush w₁ hp
  have hrefl : SameViews w₁ w₁ := fun _ _ => ⟨fun _ => rfl, fun _ => rfl⟩
  obtain ⟨w₃, hw₃, h₃⟩ := execute_undoes hundo hrefl
  obtain ⟨w₂, hw₂, h₂⟩ := execute_undoes hundo (sameViews_newOver hflush₁)
  have hflush₂ : ∀ p ∈ members, FlushedAt p w₂ w₂.flush := fun p hp => flushedAt_flush w₂ hp
  refine ⟨w₁, undo, hexec, ⟨w₃, hw₃, h₃⟩, w₂, hw₂, h₂, h₂.trans (sameViews_flushed hflush₂),
    fun p hp => ⟨fun hs => ?_, fun hs => ?_⟩⟩
  · rw [(hflush₂ p hp).view_override hs ((hflush₁ p hp).composite hs).1]
    exact (h₂ p hp).1 hs
  · rw [(hflush₂ p hp).single_override hs ((hflush₁ p hp).simple hs).1]
    exact (h₂ p hp).2 hs

end Block

/-- A block whose transactions set a value and a record, and then erase the record, on empty databases. -/
theorem execute_inverts_executeBlock_byte :
    let w : CCacheWrapper (fun _ => Byte) (fun _ => Byte) :=
      ⟨fun d => ⟨d, ∅⟩, fun _ => ⟨∅, false, 0⟩, fun _ => [], fun _ => ⟨none⟩, fun _ => [],
        fun _ => false, ∅⟩
    let txs : List (Tx (fun _ => Byte) (fun _ => Byte)) :=
      [([1], [.setData .sysParam 3 7, .setSingle .totalBpsSize 11]), ([2], [.eraseData .sysParam 3])]
    ∃ w₁ blockUndo w₂, executeBlock w txs = some (w₁, blockUndo) ∧
      execute w₁ blockUndo = some (true, w₂) ∧ w₂.view .sysParam = w.view .sysParam ∧
        w₂.singleView .totalBpsSize = w.singleView .totalBpsSize := by
  intro w txs
  have hdb : w.Stored := by
    intro p _ _ v hv
    have hempty : w.dbAccess p = ⟨getDbNameEnumByPrefix p, ∅⟩ := rfl
    rw [hempty] at hv
    exact absurd hv nofun
  have hcomp : PrefixType.sysParam ∈ members ∧ PrefixType.sysParam.isSimple = false := by decide
  have hsingle : PrefixType.totalBpsSize ∈ members ∧ PrefixType.totalBpsSize.isSimple = true := by
    decide
  have htxs : ∀ tx ∈ txs, ∀ op ∈ tx.2, op.Valid := by simp [txs, WrapperOp.Valid, hcomp, hsingle]
  obtain ⟨w₁, undo, hexec, ⟨w₂, hundo, h⟩, -⟩ := execute_inverts_executeBlock w hdb txs htxs
  exact ⟨w₁, undo, w₂, hexec, hundo, (h _ hcomp.1).1 rfl, (h _ hsingle.1).2 rfl⟩

end CCacheWrapper

end Inery
