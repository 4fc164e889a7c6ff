import IneryPersistence.Iterator.Stored

/-!
# Where a key has an entry

Reads copy entries, and flushes move them. Only `SetData` makes an entry for a key that had none at any level and
no record.

* `Held`, `HasEntry`: a cache, or a cache or the database, has an entry for a key;
* `hasEntry_apply`, **`hasEntry_step`**: what an access makes entries for;
* `Entries`, **`entries_access`**: the entries are those of some keys, and the records are live;
* `NoEntries`: where a run begins.
-/

namespace Inery

open KV

section Entry

variable {K V : Type} [LinearOrder K]

/-- A cache holds an entry for the key. -/
def Held (s : CacheStack K V) (key : K) : Prop := ∃ c ∈ s, (c.mapData.find? key).isSome

theorem held_cons {c : IneryCompositeKVCache K V} {s : CacheStack K V} {key : K} :
    Held (c :: s) key ↔ (c.mapData.find? key).isSome ∨ Held s key := by
  simp [Held]

variable [Serial K] [DbUtil K] [Serial V] [DbUtil V]

/-- A cache or the database has an entry for the key. -/
def HasEntry (acc : CDBAccess) (p : PrefixType) (s : CacheStack K V) (key : K) : Prop :=
  Held s key ∨ (acc.getData (V := V) p key).isSome

variable {acc : CDBAccess} {p : PrefixType}

omit [DbUtil K] [DbUtil V] in
theorem hasEntry_cons {c : IneryCompositeKVCache K V} {s : CacheStack K V} {key : K} :
    HasEntry acc p (c :: s) key ↔ (c.mapData.find? key).isSome ∨ HasEntry acc p s key := by
  rw [HasEntry, held_cons, or_assoc, HasEntry]

omit [DbUtil K] [DbUtil V] in
theorem hasEntry_append {us s : CacheStack K V} {key : K} :
    HasEntry acc p (us ++ s) key ↔ Held us key ∨ HasEntry acc p s key := by
  simp [HasEntry, Held, or_and_right, exists_or, or_assoc]

omit [DbUtil K] [DbUtil V] in
theorem hasEntry_of_drop {s : CacheStack K V} {j : ℕ} {key : K} (h : HasEntry acc p (s.drop j) key) :
    HasEntry acc p s key :=
  h.imp_left fun ⟨c, hc, hfind⟩ => ⟨c, List.mem_of_mem_drop hc, hfind⟩

omit [DbUtil K] [DbUtil V] in
theorem hasEntry_of_find {s : CacheStack K V} {key : K} {v : V} (h : CacheStack.find acc p s key = some v) :
    HasEntry acc p s key := by
  induction s with
  | nil =>
    refine .inr ?_
    rw [CacheStack.find_nil] at h
    rw [h]
    rfl
  | cons c s ih =>
    rw [hasEntry_cons]
    cases hc : c.mapData.find? key with
    | some w => exact .inl rfl
    | none =>
      rw [CacheStack.find_cons, override_of_none hc] at h
      exact .inr (ih h)

omit [DbUtil K] [DbUtil V] in
/-- **A read** makes no entry for a key that has none. -/
theorem hasEntry_getDataIt (k : K) {s : CacheStack K V} {key : K}
    (h : HasEntry acc p (CacheStack.getDataIt acc p k s).1 key) : HasEntry acc p s key := by
  induction s with
  | nil => exact h
  | cons c s ih =>
    have hsnd := CacheStack.getDataIt_snd acc p k s
    rw [CacheStack.getDataIt] at h
    rw [hasEntry_cons]
    cases hc : c.mapData.find? k with
    | some v =>
      rw [hc] at h
      exact hasEntry_cons.mp h
    | none =>
      rw [hc] at h
      cases hs : CacheStack.getDataIt acc p k s with
      | mk s' o =>
        rw [hs] at h ih hsnd
        cases o with
        | none => exact (hasEntry_cons.mp h).imp_right ih
        | some v =>
          rcases hasEntry_cons.mp h with h | h
          · rw [IneryCompositeKVCache.addDataToMap_mapData, SortedMap.find?_insert] at h
            split_ifs at h with hkey
            · exact .inr (hkey ▸ hasEntry_of_find hsnd.symm)
            · exact .inl h
          · exact .inr (ih h)

/-- `SetData` of a key. -/
def CacheOp.Sets (key : K) : CacheOp K V → Prop
  | .setData k _ => k = key ∧ isEmpty k = false
  | _ => False

omit [DbUtil K] [DbUtil V] in
theorem hasEntry_insert {c c' : IneryCompositeKVCache K V} {s : CacheStack K V} {k : K} {v : V}
    (hc : c'.mapData = c.mapData.insert k v) {key : K} (h : HasEntry acc p (c' :: s) key) :
    key = k ∨ HasEntry acc p (c :: s) key := by
  rw [hasEntry_cons, hc, SortedMap.find?_insert] at h
  rw [hasEntry_cons]
  split_ifs at h with hkey
  · exact .inl hkey
  · exact .inr h

omit [DbUtil K] in
theorem hasEntry_flush [LawfulSerial K] {s : CacheStack K V} {key : K}
    (h : HasEntry (CacheStack.flush acc p s).1 p (CacheStack.flush acc p s).2 key) : HasEntry acc p s key := by
  match s with
  | [] => exact h
  | [c] =>
    rw [hasEntry_cons]
    cases hc : c.mapData.find? key with
    | some v => exact .inl rfl
    | none =>
      refine .inr (.inr ?_)
      rcases (hasEntry_cons.mp h) with h | h | h
      · exact absurd h Bool.false_ne_true
      · exact absurd h fun ⟨_, hin, _⟩ => List.not_mem_nil hin
      · have hsame : (CacheStack.flush acc p [c]).1.db.find? (genDbKey p key) = acc.db.find? (genDbKey p key) := by
          refine find?_foldl_apply_of_notMem _ _ fun op hop hkey => ?_
          obtain ⟨e, he, rfl⟩ := List.mem_map.mp hop
          rw [batchEntry_key] at hkey
          obtain rfl := genDbKey_injective p hkey
          rw [SortedMap.find?_eq_some_iff.mpr he] at hc
          exact absurd hc nofun
        rw [CDBAccess.getData, readDb, hsame] at h
        exact h
  | c :: b :: bs =>
    rw [hasEntry_cons, hasEntry_cons]
    rcases hasEntry_cons.mp h with h | h
    · exact absurd h Bool.false_ne_true
    · rcases hasEntry_cons.mp h with h | h
      · rw [IneryCompositeKVCache.foldl_setDataToSelf_mapData,
          SortedMap.find?_foldl_insert c.mapData.ascending] at h
        cases hc : c.mapData.find? key with
        | some v => exact .inl rfl
        | none =>
          rw [show lookup key c.mapData.entries = none from hc, Option.none_or] at h
          exact .inr (.inl h)
      · exact .inr (.inr h)

theorem hasEntry_apply [LawfulSerial K] {log : Option CDBOpLogMap} {c : IneryCompositeKVCache K V}
    {base : CacheStack K V} {op : CacheOp K V} (hop : op.Accesses)
    {r : CDBAccess × CacheStack K V × Option CDBOpLogMap} (h : op.apply acc p log c base = some r) {key : K}
    (hkey : HasEntry r.1 p r.2.1 key) : HasEntry acc p (c :: base) key ∨ op.Sets key := by
  have hget : ∀ k, HasEntry acc p (CacheStack.getData acc p (c :: base) k).1 key →
      HasEntry acc p (c :: base) key := by
    intro k hk
    unfold CacheStack.getData at hk
    split_ifs at hk
    · exact hk
    · exact hasEntry_getDataIt k hk
  cases op with
  | getData k =>
    obtain rfl := Option.some.inj h
    exact .inl (hget k hkey)
  | hasData k =>
    obtain rfl := Option.some.inj h
    dsimp only at hkey
    rw [CacheStack.hasData_fst] at hkey
    exact .inl (hget k hkey)
  | setData k v =>
    obtain rfl := Option.some.inj h
    cases hk : isEmpty k with
    | true =>
      rw [CacheStack.setData, if_pos hk] at hkey
      exact .inl hkey
    | false =>
      obtain ⟨c₁, c₂, s', hit, hc₂, hset⟩ := CacheStack.setData_cons acc p hk log c base v
      rw [hset] at hkey
      rcases hasEntry_insert hc₂ hkey with rfl | hkey
      · exact .inr ⟨rfl, hk⟩
      · rw [← hit] at hkey
        exact .inl (hasEntry_getDataIt k hkey)
  | eraseData k =>
    obtain rfl := Option.some.inj h
    left
    cases hk : isEmpty k with
    | true =>
      rw [CacheStack.eraseData, if_pos hk] at hkey
      exact hkey
    | false =>
      obtain ⟨-, her⟩ | ⟨old, c₁, c₂, s', hold, hit, hc₂, her⟩ := CacheStack.eraseData_cons acc p hk log c base
      · rw [her] at hkey
        exact hasEntry_getDataIt k hkey
      · rw [her] at hkey
        rcases hasEntry_insert hc₂ hkey with rfl | hkey
        · exact hasEntry_of_find (live_eq_some_iff.mp hold).1
        · rw [← hit] at hkey
          exact hasEntry_getDataIt k hkey
  | flush =>
    obtain rfl := Option.some.inj h
    exact .inl (hasEntry_flush hkey)
  | undoData | clear => exact hop.elim

theorem hasEntry_step [LawfulSerial K] {st st' : CacheLevels K V} {i : ℕ} {op : CacheOp K V} (hop : op.Accesses)
    (h : CacheLevels.step p st (.cache i op) = some st') {key : K} (hkey : HasEntry st'.acc p st'.caches key) :
    HasEntry st.acc p st.caches key ∨ op.Sets key := by
  rw [CacheLevels.step] at h
  split at h
  · next c base hdrop =>
    obtain ⟨r, hr, rfl⟩ := Option.map_eq_some_iff.mp h
    have hsplit : st.caches = st.caches.take i ++ c :: base := by
      rw [← hdrop, List.take_append_drop]
    rw [hsplit, hasEntry_append, or_assoc]
    exact (hasEntry_append.mp hkey).imp_right (hasEntry_apply hop hr)
  · cases h

end Entry

/-! ## Entries of some keys -/

section Entries

variable {K V : Type} [LinearOrder K] [Serial K] [DbUtil K] [Serial V] [DbUtil V] {p : PrefixType}

/-- There are caches, all entries are those of some keys, and the records of the prefix are those that a flush
writes. -/
structure Entries (P : K → Prop) (p : PrefixType) (st : CacheLevels K V) : Prop where
  caches : st.caches ≠ []
  storedLive : StoredLive K V st.acc p
  keys : ∀ key, HasEntry st.acc p st.caches key → P key

variable [LawfulSerial K] [LawfulSerial V] [LawfulDbUtil V] {P : K → Prop}

omit [LawfulSerial V] in
/-- **One access** that sets one of the keys, or none. -/
theorem entries_access {st st' : CacheLevels K V} (hst : Entries P p st) {i : ℕ} {op : CacheOp K V}
    (hop : op.Accesses) (hP : ∀ key, op.Sets key → P key)
    (h : CacheLevels.step p st (.cache i op) = some st') : Entries P p st' where
  caches := by
    rw [CacheLevels.step] at h
    split at h
    · obtain ⟨r, hr, rfl⟩ := Option.map_eq_some_iff.mp h
      exact fun hnil => (acc_apply hop hr).2 (List.append_eq_nil_iff.mp hnil).2
    · cases h
  storedLive := by
    rw [CacheLevels.step] at h
    split at h
    · obtain ⟨r, hr, rfl⟩ := Option.map_eq_some_iff.mp h
      rcases (acc_apply hop hr).1 with hacc | hacc
      · exact hacc ▸ hst.storedLive
      · exact hacc ▸ storedLive_flush hst.storedLive _
    · cases h
  keys key hkey := (hasEntry_step hop h hkey).elim (hst.keys key) (hP key)

omit [DbUtil K] [LawfulSerial K] [LawfulSerial V] [LawfulDbUtil V] in
theorem entries_database {st : CacheLevels K V} (hst : Entries P p st) {acc : CDBAccess}
    (h : SameRecords p st.acc acc) : Entries P p { st with acc := acc } where
  caches := hst.caches
  storedLive := h.storedLive hst.storedLive
  keys key hkey := by
    refine hst.keys key (hkey.imp_right fun hget => ?_)
    rw [h.getData K V] at hget
    exact hget

/-- Empty caches, and no records of the prefix. -/
structure NoEntries (p : PrefixType) (st : CacheLevels K V) : Prop where
  caches : st.caches ≠ []
  mapData : ∀ c ∈ st.caches, c.mapData = ∅
  records : ∀ record ∈ st.acc.db.entries, ¬getKeyPrefix p <+: record.1

omit [DbUtil K] [LawfulSerial K] [LawfulSerial V] [LawfulDbUtil V] in
theorem NoEntries.entries {st : CacheLevels K V} (h : NoEntries p st) : Entries P p st where
  caches := h.caches
  storedLive record hr hpre := absurd hpre (h.records record hr)
  keys key := by
    rintro (⟨c, hc, hfind⟩ | hget)
    · rw [h.mapData c hc] at hfind
      exact absurd hfind Bool.false_ne_true
    · obtain ⟨v, hv⟩ := Option.isSome_iff_exists.mp hget
      obtain ⟨bytes, hbytes, -⟩ := Option.bind_eq_some_iff.mp hv
      exact absurd (List.prefix_append _ _) (h.records _ (SortedMap.find?_eq_some_iff.mp hbytes))

omit [DbUtil K] [LawfulSerial K] [LawfulSerial V] [LawfulDbUtil V] in
theorem NoEntries.view_drop {st : CacheLevels K V} (h : NoEntries p st) (j : ℕ) :
    CacheStack.view st.acc p (st.caches.drop j) = fun _ => none := by
  have hnone : Entries (fun _ => False) p st := h.entries
  funext key
  refine Option.eq_none_iff_forall_ne_some.mpr fun value hvalue => ?_
  exact hnone.keys key (hasEntry_of_drop (hasEntry_of_find (live_eq_some_iff.mp hvalue).1))

end Entries

end Inery
