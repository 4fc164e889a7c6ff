import IneryPersistence.Cache.Kept
import IneryPersistence.Iterator.Enumerate

/-!
# What an iterator relies on

An iterator enumerates the view of a stack when the records of its prefix are those that a flush writes, and no
key that counts as empty has a value.

* `Storable`: both, for the levels of a stack over a database;
* `acc_apply`: what an access does to the database;
* `storable_access`, `storable_database`: reads, writes and flushes at any level keep them, as do other caches.
-/

namespace Inery

open KV

section Stored

variable {K V : Type} [LinearOrder K] [Serial K] [DbUtil K] [Serial V] [DbUtil V] {p : PrefixType}

/-- No key that counts as empty has a value, and the records of the prefix are those that a flush writes. -/
structure Storable (p : PrefixType) (st : CacheLevels K V) : Prop where
  caches : st.caches ≠ []
  wellStored : WellStored K V st.acc p
  empty : ∀ key : K, isEmpty key = true → CacheStack.view st.acc p st.caches key = none

/-- Reads, writes and flushes. -/
def CacheOp.Accesses : CacheOp K V → Prop
  | .undoData _ | .clear => False
  | _ => True

omit [LinearOrder K] [DbUtil K] [DbUtil V] in
theorem SameRecords.wellStored {acc acc' : CDBAccess} (h : SameRecords p acc acc') (hacc : WellStored K V acc p) :
    WellStored K V acc' p := by
  rintro ⟨k, v⟩ hr ⟨t, rfl⟩
  have hfind := SortedMap.find?_eq_some_iff.mpr hr
  rw [h.find?] at hfind
  exact hacc _ (SortedMap.find?_eq_some_iff.mp hfind) (List.prefix_append _ _)

omit [LinearOrder K] [DbUtil K] in
theorem SameRecords.storedLive {acc acc' : CDBAccess} (h : SameRecords p acc acc') (hacc : StoredLive K V acc p) :
    StoredLive K V acc' p := by
  rintro ⟨k, v⟩ hr ⟨t, rfl⟩
  have hfind := SortedMap.find?_eq_some_iff.mpr hr
  rw [h.find?] at hfind
  exact hacc _ (SortedMap.find?_eq_some_iff.mp hfind) (List.prefix_append _ _)

variable [LawfulSerial K] [LawfulSerial V] [LawfulDbUtil V]

omit [LawfulSerial K] [LawfulSerial V] in
theorem acc_apply {acc : CDBAccess} {log : Option CDBOpLogMap} {c : IneryCompositeKVCache K V}
    {base : CacheStack K V} {op : CacheOp K V} (hop : op.Accesses)
    {r : CDBAccess × CacheStack K V × Option CDBOpLogMap} (h : op.apply acc p log c base = some r) :
    (r.1 = acc ∨ r.1 = (CacheStack.flush acc p (c :: base)).1) ∧ r.2.1 ≠ [] := by
  have hget : ∀ key : K, (CacheStack.getData acc p (c :: base) key).1 ≠ [] := by
    intro key
    obtain ⟨c', s', hcons, -⟩ := CacheStack.getData_cons acc p c base key
    rw [hcons]
    exact List.cons_ne_nil _ _
  cases op with
  | getData key =>
    obtain rfl := Option.some.inj h
    exact ⟨.inl rfl, hget key⟩
  | hasData key =>
    obtain rfl := Option.some.inj h
    refine ⟨.inl rfl, ?_⟩
    dsimp only
    rw [CacheStack.hasData_fst]
    exact hget key
  | setData key value =>
    obtain rfl := Option.some.inj h
    refine ⟨.inl rfl, ?_⟩
    cases hkey : isEmpty key with
    | true =>
      rw [CacheStack.setData, if_pos hkey]
      exact List.cons_ne_nil _ _
    | false =>
      obtain ⟨s, log, hset, hs, -⟩ := CacheStack.setData_spec acc p hkey log (List.cons_ne_nil c base) value
      dsimp only
      rw [hset]
      exact hs
  | eraseData key =>
    obtain rfl := Option.some.inj h
    refine ⟨.inl rfl, ?_⟩
    cases hkey : isEmpty key with
    | true =>
      rw [CacheStack.eraseData, if_pos hkey]
      exact List.cons_ne_nil _ _
    | false =>
      obtain ⟨s, log, her, hs, -⟩ := CacheStack.eraseData_spec acc p hkey log (List.cons_ne_nil c base)
      dsimp only
      rw [her]
      exact hs
  | flush =>
    obtain rfl := Option.some.inj h
    refine ⟨.inr rfl, ?_⟩
    dsimp only
    rw [CacheStack.flush_cons]
    exact List.cons_ne_nil _ _
  | undoData | clear => exact hop.elim

/-- **One access** at a level. -/
theorem storable_access {st st' : CacheLevels K V} (hst : Storable p st) {i : ℕ} {op : CacheOp K V}
    (hop : op.Accesses) (h : CacheLevels.step p st (.cache i op) = some st') : Storable p st' := by
  have hview : ∀ k : K, op.Leaves k → CacheStack.view st'.acc p st'.caches k =
      CacheStack.view st.acc p st.caches k := by
    intro k hk
    have hleaves : CacheLevels.Leaves p k st (.cache i op) := hk
    exact CacheLevels.view_step hleaves h
  rw [CacheLevels.step] at h
  split at h
  · next c base hdrop =>
    obtain ⟨r, hr, rfl⟩ := Option.map_eq_some_iff.mp h
    obtain ⟨hacc, hne⟩ := acc_apply hop hr
    have hdb : WellStored K V r.1 p := by
      rcases hacc with hacc | hacc
      · exact hacc ▸ hst.wellStored
      · exact hacc ▸ wellStored_flush hst.wellStored _
    refine ⟨fun hnil => hne (List.append_eq_nil_iff.mp hnil).2, hdb, fun k hk => ?_⟩
    have hsame : r.1 = st.acc → r.2.1 = c :: base →
        CacheStack.view r.1 p (st.caches.take i ++ r.2.1) k = none := by
      intro hacc' hr'
      rw [hacc', hr', ← hdrop, List.take_append_drop]
      exact hst.empty k hk
    -- a write under an empty key is refused, and a write under another key leaves this one
    cases op with
    | setData key value =>
      by_cases hkey : key = k
      · obtain rfl := Option.some.inj hr
        refine hsame rfl ?_
        rw [CacheStack.setData, if_pos (hkey ▸ hk)]
      · exact (hview k hkey).trans (hst.empty k hk)
    | eraseData key =>
      by_cases hkey : key = k
      · obtain rfl := Option.some.inj hr
        refine hsame rfl ?_
        rw [CacheStack.eraseData, if_pos (hkey ▸ hk)]
      · exact (hview k hkey).trans (hst.empty k hk)
    | getData | hasData | flush => exact (hview k trivial).trans (hst.empty k hk)
    | undoData | clear => exact hop.elim
  · cases h

omit [LawfulSerial K] [LawfulSerial V] [LawfulDbUtil V] in
theorem storable_database {st : CacheLevels K V} (hst : Storable p st) {acc : CDBAccess}
    (h : SameRecords p st.acc acc) : Storable p { st with acc := acc } where
  caches := hst.caches
  wellStored := h.wellStored hst.wellStored
  empty key hkey := by
    rw [← hst.empty key hkey]
    exact congrFun (CacheStack.view_of_getData st.acc p (h.getData K V) st.caches) key

end Stored

end Inery
