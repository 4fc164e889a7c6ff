import IneryPersistence.Cache.Refine
import IneryPersistence.Cache.Simple

/-!
# Caches that share a database

* `SameRecords`: what another cache may do to the records of a prefix, that is nothing;
* `view_of_getData`, `view_of_getSingle`: a view depends on the records of its prefix alone;
* `sameRecords_flush`, `sameRecords_flushSingle`: a flush leaves the records of every other prefix.
-/

namespace Inery

open KV

/-- Two databases hold the same records under a prefix, and every read of one answers alike. -/
structure SameRecords (q : PrefixType) (acc acc' : CDBAccess) : Prop where
  find? : ∀ t, acc'.db.find? (getKeyPrefix q ++ t) = acc.db.find? (getKeyPrefix q ++ t)
  getData : ∀ (K V : Type) [Serial K] [Serial V] (key : K),
    acc'.getData (V := V) q key = acc.getData q key
  getSingle : ∀ (V : Type) [Serial V], acc'.getSingle (V := V) q = acc.getSingle q

theorem sameRecords_of_find? {q : PrefixType} {acc acc' : CDBAccess}
    (h : ∀ t, acc'.db.find? (getKeyPrefix q ++ t) = acc.db.find? (getKeyPrefix q ++ t)) :
    SameRecords q acc acc' where
  find? := h
  getData _ _ _ _ key := by
    unfold CDBAccess.getData readDb genDbKey
    rw [h]
  getSingle _ _ := by
    have hbare := h []
    rw [List.append_nil] at hbare
    unfold CDBAccess.getSingle readDb
    rw [hbare]

theorem SameRecords.trans {q : PrefixType} {acc acc' acc'' : CDBAccess} (h : SameRecords q acc acc')
    (h' : SameRecords q acc' acc'') : SameRecords q acc acc'' :=
  sameRecords_of_find? fun t => (h'.find? t).trans (h.find? t)

/-! ## Views -/

theorem CacheStack.view_of_getData {K V : Type} [LinearOrder K] [Serial K] [Serial V] [DbUtil V] (acc : CDBAccess)
    (p : PrefixType) {acc' : CDBAccess} (h : ∀ key : K, acc'.getData (V := V) p key = acc.getData p key)
    (s : CacheStack K V) : view acc' p s = view acc p s := by
  have hdb : acc'.getData (K := K) (V := V) p = acc.getData p := funext h
  funext key
  rw [view, find, hdb, view, find]

theorem SimpleStack.view_of_getSingle {V : Type} [Serial V] [DbUtil V] (acc : CDBAccess) (p : PrefixType)
    {acc' : CDBAccess} (h : acc'.getSingle (V := V) p = acc.getSingle p) (s : SimpleStack V) :
    view acc' p s = view acc p s := by
  rw [view, find, h, view, find]

/-! ## Flushes -/

theorem CacheStack.find?_flush_of_ne {K V : Type} [LinearOrder K] [Serial K] [Serial V] [DbUtil V]
    (acc : CDBAccess) {p : PrefixType} {key : Bytes} (hkey : ∀ t, key ≠ getKeyPrefix p ++ t)
    (s : CacheStack K V) : (flush acc p s).1.db.find? key = acc.db.find? key := by
  match s with
  | [] => rfl
  | [c] =>
    refine find?_foldl_apply_of_notMem _ _ fun op hop => ?_
    obtain ⟨e, -, rfl⟩ := List.mem_map.mp hop
    rw [batchEntry_key]
    exact hkey _
  | _ :: _ :: _ => rfl

theorem SimpleStack.find?_flush_of_ne {V : Type} [Serial V] [DbUtil V] (acc : CDBAccess)
    {p : PrefixType} {key : Bytes} (hkey : ∀ t, key ≠ getKeyPrefix p ++ t) (s : SimpleStack V) :
    (flush acc p s).1.db.find? key = acc.db.find? key := by
  have hne : key ≠ getKeyPrefix p := by simpa using hkey []
  match s with
  | [] | ⟨none⟩ :: _ | ⟨some _⟩ :: _ :: _ => rfl
  | [⟨some v⟩] => exact apply_find?_of_ne _ (by rwa [batchEntry_key])

section Flush

variable {p q : PrefixType} (hp : p.InUse) (hq : q.InUse) (hpq : p ≠ q)

include hp hq hpq

/-- **The flush of a composite cache** leaves the records of every other prefix. -/
theorem sameRecords_flush {K V : Type} [LinearOrder K] [Serial K] [DbUtil K] [Serial V] [DbUtil V]
    (acc : CDBAccess) (s : CacheStack K V) : SameRecords q acc (s.flush acc p).1 :=
  sameRecords_of_find? fun t =>
    CacheStack.find?_flush_of_ne acc (fun t' => getKeyPrefix_append_ne hq hp hpq.symm t t') s

/-- **The flush of a single value** leaves the records of every other prefix. -/
theorem sameRecords_flushSingle {V : Type} [Serial V] [DbUtil V] (acc : CDBAccess) (s : SimpleStack V) :
    SameRecords q acc (s.flush acc p).1 :=
  sameRecords_of_find? fun t =>
    SimpleStack.find?_flush_of_ne acc (fun t' => getKeyPrefix_append_ne hq hp hpq.symm t t') s

end Flush

end Inery
