import IneryPersistence.Lib.Merge
import IneryPersistence.Lib.Overlay

/-!
# Merging over a list in another order

Ascending lists are laid over a list that is in an order of its own. An entry of that list which comes after a
larger key is not met by the cursor of an upper list any more, and is given although the upper list has its key.

* `pairwise_overlay`, `overlay_split`, **`mem_overlay_iff`**: one list laid over any other;
* `layered`: several lists, one over the other, dead entries left out;
* `Ahead`, `Overtaken`, `Given`: what is met before an entry of the lowest list, and which of them are given;
* `Laid`, **`Laid.cons`**, `exists_laid`: the merged list, each entry with the list it is from;
* `not_overtaken`, **`overtaken_iff`**, `given_iff`: a lowest list that is ascending too, and upper lists without
  dead entries;
* `filter_overlay`: the entries of one part.
-/

namespace KV

variable {K V : Type} [LinearOrder K]

/-! ## One list -/

theorem mem_overlay_left {m b : List (K × V)} {e : K × V} (h : e ∈ m) : e ∈ overlay m b := by
  fun_induction overlay m b with
  | case1 b => exact absurd h List.not_mem_nil
  | case2 m => exact h
  | case3 mk mv m bk bv b hlt ih => exact List.mem_cons_of_mem _ (ih h)
  | case4 mk mv m bk bv b hle hlt ih | case5 mk mv m bk bv b hle hge ih =>
    rcases List.mem_cons.mp h with rfl | h
    · exact List.mem_cons_self
    · exact List.mem_cons_of_mem _ (ih h)

/-- A relation between the entries of the lower list, which follows from the order of the keys where an upper
entry takes part. -/
theorem pairwise_overlay {R : K × V → K × V → Prop} {m b : List (K × V)} (hm : Ascending m) (hb : b.Pairwise R)
    (hlt : ∀ e e', e ∈ m ∨ e' ∈ m → e.1 < e'.1 → R e e')
    (htrans : ∀ e ∈ m, ∀ e' ∈ b, ∀ e'' ∈ b, e.1 ≤ e'.1 → R e' e'' → R e e'') : (overlay m b).Pairwise R := by
  fun_induction overlay m b with
  | case1 b => exact hb
  | case2 m => exact hm.imp_of_mem fun he _ => hlt _ _ (.inl he)
  | case3 mk mv m bk bv b hbm ih =>
    obtain ⟨hhead, htail⟩ := List.pairwise_cons.mp hb
    refine List.pairwise_cons.mpr ⟨fun e he => ?_, ih hm htail hlt fun e he e' he' e'' he'' =>
      htrans e he e' (List.mem_cons_of_mem _ he') e'' (List.mem_cons_of_mem _ he'')⟩
    rcases mem_overlay he with he | he
    · refine hlt _ _ (.inr he) ?_
      rcases List.mem_cons.mp he with rfl | he
      · exact hbm
      · exact lt_trans hbm (hm.head_lt e he)
    · exact hhead e he
  | case4 mk mv m bk bv b hbm hmb ih =>
    refine List.pairwise_cons.mpr ⟨fun e he => ?_, ih hm.tail hb
      (fun e e' he => hlt e e' (he.imp (List.mem_cons_of_mem _) (List.mem_cons_of_mem _)))
      fun e he => htrans e (List.mem_cons_of_mem _ he)⟩
    rcases mem_overlay he with he | he
    · exact hlt _ _ (.inl List.mem_cons_self) (hm.head_lt e he)
    · rcases List.mem_cons.mp he with rfl | he
      · exact hlt _ _ (.inl List.mem_cons_self) hmb
      · exact htrans _ List.mem_cons_self (bk, bv) List.mem_cons_self e (List.mem_cons_of_mem _ he) hmb.le
          (List.rel_of_pairwise_cons hb he)
  | case5 mk mv m bk bv b hbm hmb ih =>
    obtain rfl : mk = bk := le_antisymm (not_lt.mp hbm) (not_lt.mp hmb)
    obtain ⟨hhead, htail⟩ := List.pairwise_cons.mp hb
    refine List.pairwise_cons.mpr ⟨fun e he => ?_, ih hm.tail htail
      (fun e e' he => hlt e e' (he.imp (List.mem_cons_of_mem _) (List.mem_cons_of_mem _)))
      fun e he e' he' e'' he'' => htrans e (List.mem_cons_of_mem _ he) e' (List.mem_cons_of_mem _ he') e''
        (List.mem_cons_of_mem _ he'')⟩
    rcases mem_overlay he with he | he
    · exact hlt _ _ (.inl List.mem_cons_self) (hm.head_lt e he)
    · exact htrans _ List.mem_cons_self (mk, bv) List.mem_cons_self e (List.mem_cons_of_mem _ he) le_rfl
        (hhead e he)

theorem overlay_map {W : Type} (f : V → W) (m b : List (K × V)) :
    overlay (m.map fun e => (e.1, f e.2)) (b.map fun e => (e.1, f e.2)) =
      (overlay m b).map fun e => (e.1, f e.2) := by
  fun_induction overlay m b with
  | case1 b => simp
  | case2 m => simp
  | case3 mk mv m bk bv b hlt ih =>
    rw [List.map_cons, List.map_cons, overlay_cons_cons, if_pos hlt, List.map_cons, ← ih]
    rfl
  | case4 mk mv m bk bv b hle hlt ih =>
    rw [List.map_cons, List.map_cons, overlay_cons_cons, if_neg hle, if_pos hlt, List.map_cons, ← ih]
    rfl
  | case5 mk mv m bk bv b hle hge ih =>
    rw [List.map_cons, List.map_cons, overlay_cons_cons, if_neg hle, if_neg hge, List.map_cons, ← ih]

/-- The upper cursor has passed the keys below an entry of the lower list, and those not above an earlier one. -/
def Passed (l₁ : List (K × V)) (x : K) (d : K × V) : Prop := d.1 < x ∨ ∃ e' ∈ l₁, d.1 ≤ e'.1

section Split

variable {m l₁ l₂ : List (K × V)} {e : K × V} (hm : Ascending m)
include hm

variable (l₁ l₂ e) in
/-- **Where the lower cursor comes to an entry**, the lists are merged piece by piece. -/
theorem overlay_split : ∃ m₁ m₂, m = m₁ ++ m₂ ∧ Ascending m₁ ∧ Ascending m₂ ∧
    (∀ d, d ∈ m₁ ↔ d ∈ m ∧ Passed l₁ e.1 d) ∧ (∀ d ∈ m₂, ¬Passed l₁ e.1 d) ∧
      overlay m (l₁ ++ e :: l₂) = overlay m₁ l₁ ++ overlay m₂ (e :: l₂) := by
  obtain ⟨m₁, m₂, rfl, hmem, hmem'⟩ := exists_append_of_pairwise (q := Passed l₁ e.1)
    (hm.imp fun {d d'} hlt hd' => hd'.imp (lt_trans hlt) fun ⟨e', he', hle⟩ => ⟨e', he', hlt.le.trans hle⟩)
  have hasc₁ : Ascending m₁ := hm.sublist (List.sublist_append_left m₁ m₂)
  refine ⟨m₁, m₂, rfl, hasc₁, hm.sublist (List.sublist_append_right m₁ m₂), hmem, fun d hd => (hmem' d hd).2, ?_⟩
  refine overlay_append_append hasc₁ (fun d hd => ?_) fun d hd e' he' => ?_
  · refine ((hmem d).mp hd).2.symm.imp_right fun hlt e' he' => ?_
    obtain rfl : e = e' := Option.some.inj he'
    exact hlt
  · have hnot := (hmem' d (List.mem_of_mem_head? hd)).2
    exact not_le.mp fun hle => hnot (.inr ⟨e', he', hle⟩)

variable (l₂) in
theorem overlay_split_given (h : lookup e.1 m = none ∨ ∃ e' ∈ l₁, e.1 ≤ e'.1) : ∃ m₁ m₂, Ascending m₁ ∧
    (∀ d, d ∈ m₁ ↔ d ∈ m ∧ Passed l₁ e.1 d) ∧
      overlay m (l₁ ++ e :: l₂) = overlay m₁ l₁ ++ e :: overlay m₂ l₂ := by
  obtain ⟨m₁, m₂, rfl, hasc₁, -, hmem, hnot, heq⟩ := overlay_split l₁ l₂ e hm
  refine ⟨m₁, m₂, hasc₁, hmem, ?_⟩
  rw [heq, overlay_cons_of_lt fun d hd => ?_]
  have hle : e.1 ≤ d.1 := not_lt.mp fun hlt => hnot d hd (.inl hlt)
  refine lt_of_le_of_ne hle fun hkey => ?_
  rcases h with hnone | ⟨e', he', hle'⟩
  · have hsome := hm.lookup_eq_some_iff.mpr (show (e.1, d.2) ∈ m₁ ++ m₂ from hkey ▸ List.mem_append_right _ hd)
    rw [hnone] at hsome
    exact absurd hsome nofun
  · exact hnot d hd (.inr ⟨e', he', hkey ▸ hle'⟩)

variable (l₂) in
theorem overlay_split_met {v : V} (h : lookup e.1 m = some v) (hlt : ∀ e' ∈ l₁, e'.1 < e.1) :
    ∃ m₁ m₂, overlay m (l₁ ++ e :: l₂) = overlay m₁ l₁ ++ (e.1, v) :: overlay m₂ l₂ ∧
      (∀ d ∈ m₁, d ∈ m) ∧ ∀ d ∈ m₂, d ∈ m := by
  obtain ⟨m₁, m₂, rfl, -, hasc₂, hmem, hnot, heq⟩ := overlay_split l₁ l₂ e hm
  have hv := hm.lookup_eq_some_iff.mp h
  have hin : (e.1, v) ∈ m₂ := by
    refine (List.mem_append.mp hv).resolve_left fun hv₁ => ?_
    rcases ((hmem _).mp hv₁).2 with hself | ⟨e', he', hle⟩
    · exact lt_irrefl _ hself
    · exact hle.not_gt (hlt e' he')
  cases m₂ with
  | nil => exact absurd hin List.not_mem_nil
  | cons d m₂ =>
    have hle : e.1 ≤ d.1 := not_lt.mp fun hlt => hnot d List.mem_cons_self (.inl hlt)
    obtain rfl : d = (e.1, v) := by
      rcases List.mem_cons.mp hin with rfl | hin
      · rfl
      · exact absurd (hasc₂.head_lt _ hin) hle.not_gt
    refine ⟨m₁, m₂, ?_, fun d hd => List.mem_append_left _ hd, fun d hd =>
      List.mem_append_right _ (List.mem_cons_of_mem _ hd)⟩
    obtain ⟨k, w⟩ := e
    rw [heq, overlay_cons_cons, if_neg (lt_irrefl k), if_neg (lt_irrefl k)]

/-- **The entries of one list laid over any other.** -/
theorem mem_overlay_iff {b : List (K × V)} (hb : b.Nodup) : e ∈ overlay m b ↔
    e ∈ m ∨ ∃ l₁ l₂, b = l₁ ++ e :: l₂ ∧ (lookup e.1 m = none ∨ ∃ e' ∈ l₁, e.1 ≤ e'.1) := by
  constructor
  · intro h
    refine or_iff_not_imp_left.mpr fun hnot => ?_
    obtain ⟨l₁, l₂, rfl⟩ := List.append_of_mem ((mem_overlay h).resolve_left hnot)
    refine ⟨l₁, l₂, rfl, or_iff_not_imp_left.mpr fun hsome => ?_⟩
    obtain ⟨v, hv⟩ := Option.ne_none_iff_exists'.mp hsome
    by_contra hlt
    have hlt' : ∀ e' ∈ l₁, e'.1 < e.1 := fun e' he' => not_le.mp fun hle => hlt ⟨e', he', hle⟩
    obtain ⟨m₁, m₂, heq, hm₁, hm₂⟩ := overlay_split_met l₂ hm hv hlt'
    have hne := List.nodup_middle.mp hb
    obtain ⟨he, -⟩ := List.nodup_cons.mp hne
    rw [heq, List.mem_append, List.mem_cons] at h
    rcases h with h | h | h
    · exact he (List.mem_append_left _ ((mem_overlay h).resolve_left fun h => hnot (hm₁ _ h)))
    · exact hnot (h ▸ hm.lookup_eq_some_iff.mp hv)
    · exact he (List.mem_append_right _ ((mem_overlay h).resolve_left fun h => hnot (hm₂ _ h)))
  · rintro (h | ⟨l₁, l₂, rfl, h⟩)
    · exact mem_overlay_left h
    · obtain ⟨m₁, m₂, -, -, heq⟩ := overlay_split_given l₂ hm h
      rw [heq]
      exact List.mem_append_right _ List.mem_cons_self

end Split

/-! ## Several lists -/

/-- The lists of `ms` laid over `b`, the first one on top; each of them leaves out the entries that are dead. -/
def layered (dead : V → Bool) (ms : List (List (K × V))) (b : List (K × V)) : List (K × V) :=
  ms.foldr (fun m l => (overlay m l).filter fun e => !dead e.2) b

section Layers

variable (dead : V → Bool) (prec : K → K → Prop)

/-- The entry of `w` is given before the lowest entry of `x`, and is not below it. `prec` is the order of the lowest
list: an entry of an upper list is given early when it is not above one that is, and an entry that an upper list has
too is left out, or replaced, unless it is a lowest one that comes too late itself. -/
def Ahead : List (K → Option V) → K → K → Prop
  | [], w, x => prec w x
  | m :: ms, w, x =>
    (∃ v, m w = some v ∧ dead v = false) ∧ (∃ w', w ≤ w' ∧ Ahead ms w' x) ∨
    m w = none ∧ Ahead ms w x ∨
    prec w x ∧ ∃ w', w ≤ w' ∧ Ahead ms w' w

/-- The lowest entry of a key comes too late for an upper list. -/
def Overtaken (ms : List (K → Option V)) (x : K) : Prop := ∃ w, x ≤ w ∧ Ahead dead prec ms w x

/-- The lowest entry of a key is given: every list that has the key has passed it. -/
def Given : List (K → Option V) → K → Prop
  | [], _ => True
  | m :: ms, x => Given ms x ∧ (m x = none ∨ Overtaken dead prec ms x)

/-- The lowest list is in the order `prec`. -/
structure ListedBy (b : List (K × V)) : Prop where
  pairwise : b.Pairwise fun e e' => prec e.1 e'.1
  irrefl : ∀ x, ¬prec x x
  trans : ∀ w x y, prec w x → prec x y → prec w y
  mem : ∀ w x, prec w x → ∃ v, (w, v) ∈ b

/-- The merged list `T`, each entry with whether it is a lowest one. -/
structure Laid (b : List (K × V)) (ms : List (K → Option V)) (T : List (K × V × Bool)) : Prop where
  live : ∀ e ∈ T, dead e.2.1 = false
  upper : ∀ k v, (k, v, false) ∈ T ↔ pile ms (fun _ => none) k = some v ∧ dead v = false
  lowest : ∀ k v, (k, v, true) ∈ T ↔ (k, v) ∈ b ∧ Given dead prec ms k
  ascends : T.Pairwise fun e e' => e'.2.2 = false → e.1 < e'.1
  order : T.Pairwise fun e e' => e.2.2 = true → e'.2.2 = true → prec e.1 e'.1
  ahead : ∀ l₁ x v l₂, T = l₁ ++ (x, v, true) :: l₂ → ∀ w, x ≤ w →
    ((∃ e ∈ l₁, e.1 = w) ↔ Ahead dead prec ms w x)

end Layers

section Laid

variable {dead : V → Bool} {prec : K → K → Prop} {b : List (K × V)}

theorem Ahead.trans (hb : ListedBy prec b) {ms : List (K → Option V)} {w x y : K}
    (h : Ahead dead prec ms w x) (hxy : prec x y) : Ahead dead prec ms w y := by
  induction ms generalizing w with
  | nil => exact hb.trans _ _ _ h hxy
  | cons m ms ih =>
    rcases h with ⟨hlive, w', hle, h⟩ | ⟨hnone, h⟩ | ⟨hprec, h⟩
    · exact .inl ⟨hlive, w', hle, ih h⟩
    · exact .inr (.inl ⟨hnone, ih h⟩)
    · exact .inr (.inr ⟨hb.trans _ _ _ hprec hxy, h⟩)

/-- An entry that comes too late is given. -/
theorem Overtaken.given (hb : ListedBy prec b) {ms : List (K → Option V)} {x : K}
    (h : Overtaken dead prec ms x) : Given dead prec ms x := by
  induction ms with
  | nil => trivial
  | cons m ms ih =>
    have hbase : Overtaken dead prec ms x := by
      obtain ⟨w, hle, ⟨-, w', hle', h⟩ | ⟨-, h⟩ | ⟨hprec, w', hle', h⟩⟩ := h
      · exact ⟨w', hle.trans hle', h⟩
      · exact ⟨w, hle, h⟩
      · exact ⟨w', hle.trans hle', h.trans hb hprec⟩
    exact ⟨ih hbase, .inr hbase⟩

theorem laid_nil (hb : ListedBy prec b) (hlive : ∀ e ∈ b, dead e.2 = false) :
    Laid dead prec b [] (b.map fun e => (e.1, e.2, true)) where
  live e he := by
    obtain ⟨d, hd, rfl⟩ := List.mem_map.mp he
    exact hlive d hd
  upper k v := by simp
  lowest k v := by simp [Given]
  ascends := List.pairwise_map.mpr (List.pairwise_of_forall fun _ _ h => absurd h nofun)
  order := List.pairwise_map.mpr (hb.pairwise.imp fun h _ _ => h)
  ahead l₁ x v l₂ hsplit w _ := by
    have horder : (b.map fun e => (e.1, e.2, true)).Pairwise fun e e' => prec e.1 e'.1 :=
      List.pairwise_map.mpr hb.pairwise
    rw [hsplit] at horder
    obtain ⟨-, htail, hcross⟩ := List.pairwise_append.mp horder
    constructor
    · rintro ⟨e, he, rfl⟩
      exact hcross e he _ List.mem_cons_self
    · intro h
      obtain ⟨v', hv'⟩ := hb.mem w x h
      have hin : (w, v', true) ∈ l₁ ++ (x, v, true) :: l₂ := by
        rw [← hsplit]
        exact List.mem_map.mpr ⟨_, hv', rfl⟩
      rcases List.mem_append.mp hin with hin | hin
      · exact ⟨_, hin, rfl⟩
      · rcases List.mem_cons.mp hin with heq | hin
        · obtain rfl : w = x := congrArg Prod.fst heq
          exact absurd h (hb.irrefl w)
        · exact absurd (hb.trans _ _ _ h (List.rel_of_pairwise_cons htail hin)) (hb.irrefl w)

theorem nodup_of_pairwise (hb : ListedBy prec b) {T : List (K × V × Bool)}
    (hasc : T.Pairwise fun e e' => e'.2.2 = false → e.1 < e'.1)
    (horder : T.Pairwise fun e e' => e.2.2 = true → e'.2.2 = true → prec e.1 e'.1) : T.Nodup := by
  refine (hasc.and horder).imp fun {e e'} h => ?_
  rintro rfl
  cases hlow : e.2.2 with
  | false => exact lt_irrefl _ (h.1 hlow)
  | true => exact hb.irrefl _ (h.2 hlow hlow)

namespace Laid

variable {ms : List (K → Option V)} {T : List (K × V × Bool)} (hT : Laid dead prec b ms T)
include hT

theorem nodup (hb : ListedBy prec b) : T.Nodup := nodup_of_pairwise hb hT.ascends hT.order

theorem low_of_le {l₁ l₂ : List (K × V × Bool)} {e e' : K × V × Bool} (hsplit : T = l₁ ++ e :: l₂) (he' : e' ∈ l₁)
    (hle : e.1 ≤ e'.1) : e.2.2 = true := by
  have hasc := hT.ascends
  rw [hsplit] at hasc
  obtain ⟨-, -, hcross⟩ := List.pairwise_append.mp hasc
  refine Bool.eq_true_of_not_eq_false fun hlow => hle.not_gt (hcross e' he' e List.mem_cons_self hlow)

theorem prec_of_mem {l₁ l₂ : List (K × V × Bool)} {e e' : K × V × Bool} (hsplit : T = l₁ ++ e :: l₂)
    (hlow : e.2.2 = true) (he' : e' ∈ l₁) (hlow' : e'.2.2 = true) : prec e'.1 e.1 := by
  have horder := hT.order
  rw [hsplit] at horder
  obtain ⟨-, -, hcross⟩ := List.pairwise_append.mp horder
  exact hcross e' he' e List.mem_cons_self hlow' hlow

theorem mem_of_prec (hb : ListedBy prec b) {l₁ l₂ : List (K × V × Bool)} {w x : K} {u v : V}
    (hsplit : T = l₁ ++ (x, v, true) :: l₂) (hin : (w, u, true) ∈ T) (hprec : prec w x) : (w, u, true) ∈ l₁ := by
  have horder := hT.order
  rw [hsplit] at hin horder
  obtain ⟨-, htail, -⟩ := List.pairwise_append.mp horder
  refine (List.mem_append.mp hin).resolve_right fun hin => ?_
  rcases List.mem_cons.mp hin with heq | hin
  · obtain rfl : w = x := congrArg Prod.fst heq
    exact hb.irrefl w hprec
  · exact hb.irrefl w (hb.trans _ _ _ hprec (List.rel_of_pairwise_cons htail hin rfl rfl))

theorem exists_ge_iff {l₁ l₂ : List (K × V × Bool)} {x : K} {v : V} (hsplit : T = l₁ ++ (x, v, true) :: l₂) (w : K)
    (hw : x ≤ w) : (∃ e ∈ l₁, w ≤ e.1) ↔ ∃ w', w ≤ w' ∧ Ahead dead prec ms w' x := by
  constructor
  · rintro ⟨e, he, hle⟩
    exact ⟨e.1, hle, (hT.ahead l₁ x v l₂ hsplit e.1 (hw.trans hle)).mp ⟨e, he, rfl⟩⟩
  · rintro ⟨w', hle, h⟩
    obtain ⟨e, he, rfl⟩ := (hT.ahead l₁ x v l₂ hsplit w' (hw.trans hle)).mpr h
    exact ⟨e, he, hle⟩

end Laid

/-! ### One more list -/

/-- An entry of an upper list. -/
def fromUpper (e : K × V) : K × V × Bool := (e.1, e.2, false)

theorem ascending_fromUpper {m : List (K × V)} (hm : Ascending m) : Ascending (m.map fromUpper) :=
  List.pairwise_map.mpr hm

theorem lookup_fromUpper (k : K) (m : List (K × V)) :
    lookup k (m.map fromUpper) = (lookup k m).map fun v => (v, false) := by
  induction m with
  | nil => rfl
  | cons e m ih =>
    rw [List.map_cons, fromUpper, lookup_cons, ih, lookup_cons]
    split_ifs <;> rfl

theorem mem_fromUpper_iff {m : List (K × V)} (hm : Ascending m) {k : K} {v : V} {low : Bool} :
    (k, v, low) ∈ m.map fromUpper ↔ lookup k m = some v ∧ low = false := by
  rw [hm.lookup_eq_some_iff, List.mem_map]
  constructor
  · rintro ⟨⟨k', v'⟩, he, heq⟩
    obtain ⟨rfl, hrest⟩ := Prod.mk.inj heq
    obtain ⟨rfl, rfl⟩ := Prod.mk.inj hrest
    exact ⟨he, rfl⟩
  · rintro ⟨he, rfl⟩
    exact ⟨_, he, rfl⟩

namespace Laid

variable {ms : List (K → Option V)} {T : List (K × V × Bool)} (hT : Laid dead prec b ms T) (hb : ListedBy prec b)
  {m : List (K × V)} (hm : Ascending m)
include hT hb hm

theorem mem_overlay_iff {e : K × V × Bool} : e ∈ overlay (m.map fromUpper) T ↔
    (e.2.2 = false ∧ lookup e.1 m = some e.2.1) ∨
      ∃ l₁ l₂, T = l₁ ++ e :: l₂ ∧ (lookup e.1 m = none ∨ ∃ e' ∈ l₁, e.1 ≤ e'.1) := by
  rw [KV.mem_overlay_iff (ascending_fromUpper hm) (hT.nodup hb), lookup_fromUpper, Option.map_eq_none_iff]
  refine or_congr_left ?_
  rw [and_comm]
  exact mem_fromUpper_iff hm

/-- The merged list over one more upper list. -/
def liveOver (dead : V → Bool) (m : List (K × V)) (T : List (K × V × Bool)) : List (K × V × Bool) :=
  (overlay (m.map fromUpper) T).filter fun e => !dead e.2.1

theorem mem_over_upper (k : K) (v : V) : (k, v, false) ∈ liveOver dead m T ↔
    pile ((fun k => lookup k m) :: ms) (fun _ => none) k = some v ∧ dead v = false := by
  have hpile : pile ((fun k => lookup k m) :: ms) (fun _ => none) k =
      (lookup k m).or (pile ms (fun _ => none) k) := rfl
  rw [liveOver, List.mem_filter, hT.mem_overlay_iff hb hm, hpile]
  simp only [Bool.not_eq_true']
  refine and_congr_left fun hlive => ?_
  constructor
  · rintro (⟨-, hv⟩ | ⟨l₁, l₂, hsplit, hnone | ⟨e', he', hle⟩⟩)
    · rw [hv, Option.some_or]
    · rw [hnone, Option.none_or]
      exact ((hT.upper k v).mp (hsplit ▸ List.mem_append_right _ List.mem_cons_self)).1
    · exact absurd (hT.low_of_le hsplit he' hle) nofun
  · intro h
    cases hk : lookup k m with
    | some v' =>
      rw [hk, Option.some_or] at h
      exact .inl ⟨trivial, h⟩
    | none =>
      rw [hk, Option.none_or] at h
      obtain ⟨l₁, l₂, hsplit⟩ := List.append_of_mem ((hT.upper k v).mpr ⟨h, hlive⟩)
      exact .inr ⟨l₁, l₂, hsplit, .inl rfl⟩

theorem mem_over_lowest (k : K) (v : V) : (k, v, true) ∈ liveOver dead m T ↔
    (k, v) ∈ b ∧ Given dead prec ((fun k => lookup k m) :: ms) k := by
  have hlate : ∀ {l₁ l₂ : List (K × V × Bool)}, T = l₁ ++ (k, v, true) :: l₂ →
      ((∃ e' ∈ l₁, k ≤ e'.1) ↔ Overtaken dead prec ms k) := fun hsplit => hT.exists_ge_iff hsplit k le_rfl
  rw [liveOver, List.mem_filter, hT.mem_overlay_iff hb hm, Given, ← and_assoc, ← hT.lowest]
  constructor
  · rintro ⟨⟨hlow, -⟩ | ⟨l₁, l₂, hsplit, h⟩, -⟩
    · exact absurd hlow nofun
    · exact ⟨hsplit ▸ List.mem_append_right _ List.mem_cons_self, h.imp_right (hlate hsplit).mp⟩
  · rintro ⟨hin, h⟩
    obtain ⟨l₁, l₂, hsplit⟩ := List.append_of_mem hin
    refine ⟨.inr ⟨l₁, l₂, hsplit, h.imp_right (hlate hsplit).mpr⟩, ?_⟩
    rw [hT.live _ hin]
    rfl

omit hb in
theorem ascends_over : (liveOver dead m T).Pairwise fun e e' => e'.2.2 = false → e.1 < e'.1 :=
  (pairwise_overlay (ascending_fromUpper hm) hT.ascends (fun _ _ _ hlt _ => hlt)
    fun _ _ _ _ _ _ hle h hlow => hle.trans_lt (h hlow)).filter _

omit hb in
theorem order_over : (liveOver dead m T).Pairwise fun e e' => e.2.2 = true → e'.2.2 = true → prec e.1 e'.1 := by
  have hlow : ∀ e ∈ m.map fromUpper, e.2.2 ≠ true := by
    rintro e he
    obtain ⟨d, -, rfl⟩ := List.mem_map.mp he
    exact Bool.false_ne_true
  refine (pairwise_overlay (ascending_fromUpper hm) hT.order (fun e e' he _ h h' => ?_)
    fun e he _ _ _ _ _ _ h _ => absurd h (hlow e he)).filter _
  exact he.elim (fun he => absurd h (hlow e he)) fun he => absurd h' (hlow e' he)

theorem over_split {l₁ l₂ : List (K × V × Bool)} {x : K} {v : V}
    (hsplit : liveOver dead m T = l₁ ++ (x, v, true) :: l₂) : ∃ t₁ t₂ m₁, T = t₁ ++ (x, v, true) :: t₂ ∧
      Ascending m₁ ∧ (∀ d, d ∈ m₁ ↔ d ∈ m.map fromUpper ∧ Passed t₁ x d) ∧
        l₁ = (overlay m₁ t₁).filter fun e => !dead e.2.1 := by
  have hnodup := nodup_of_pairwise hb (hT.ascends_over hm) (hT.order_over hm)
  have hin : (x, v, true) ∈ liveOver dead m T := hsplit ▸ List.mem_append_right _ List.mem_cons_self
  obtain ⟨hin, hlive⟩ := List.mem_filter.mp hin
  obtain ⟨t₁, t₂, ht, hgiven⟩ := ((hT.mem_overlay_iff hb hm).mp hin).resolve_left fun h => absurd h.1 nofun
  have hgiven' : lookup x (m.map fromUpper) = none ∨ ∃ e' ∈ t₁, x ≤ e'.1 := by
    rwa [lookup_fromUpper, Option.map_eq_none_iff]
  obtain ⟨m₁, m₂, hasc₁, hmem, heq⟩ := overlay_split_given t₂ (e := (x, v, true)) (ascending_fromUpper hm) hgiven'
  refine ⟨t₁, t₂, m₁, ht, hasc₁, hmem, ?_⟩
  have hfilter : ∀ l, ((x, v, true) :: l).filter (fun e => !dead e.2.1) =
      (x, v, true) :: l.filter fun e => !dead e.2.1 := fun l => List.filter_cons_of_pos hlive
  rw [liveOver, ht, heq, List.filter_append, hfilter] at hsplit hnodup
  rw [hsplit] at hnodup
  have hnot := (List.nodup_cons.mp (List.nodup_middle.mp hnodup)).1
  have hinj := (List.append_cons_inj_of_notMem (fun h => hnot (List.mem_append_left _ h))
    (fun h => hnot (List.mem_append_right _ h))).mp hsplit.symm
  exact hinj.1

section Before

variable {t₁ t₂ m₁ : List (K × V × Bool)} {x : K} {v : V} (ht : T = t₁ ++ (x, v, true) :: t₂)
  (hasc : Ascending m₁) (hmem : ∀ d, d ∈ m₁ ↔ d ∈ m.map fromUpper ∧ Passed t₁ x d)
include hmem

omit hT hb in
theorem mem_passed_iff {w : K} (hw : x ≤ w) {u : V} {low : Bool} :
    (w, u, low) ∈ m₁ ↔ (lookup w m = some u ∧ low = false) ∧ ∃ e ∈ t₁, w ≤ e.1 := by
  rw [hmem, mem_fromUpper_iff hm]
  exact and_congr_right fun _ => or_iff_right hw.not_gt

include ht hasc

theorem ahead_of_mem {e : K × V × Bool} (he : e ∈ overlay m₁ t₁) (hlive : dead e.2.1 = false) (hw : x ≤ e.1) :
    Ahead dead prec ((fun k => lookup k m) :: ms) e.1 x := by
  have hnodup : t₁.Nodup := (ht ▸ hT.nodup hb).sublist (List.sublist_append_left t₁ _)
  rcases (KV.mem_overlay_iff hasc hnodup).mp he with he | ⟨a, c, hac, hlate⟩
  · obtain ⟨hu, hpassed⟩ := (mem_passed_iff hm hmem hw).mp he
    exact .inl ⟨⟨e.2.1, hu.1, hlive⟩, (hT.exists_ge_iff ht e.1 hw).mp hpassed⟩
  · have hin : e ∈ t₁ := hac ▸ List.mem_append_right _ List.mem_cons_self
    rcases hlate with hnone | ⟨e', he', hle⟩
    · refine .inr (.inl ⟨?_, (hT.ahead t₁ x v t₂ ht e.1 hw).mp ⟨e, hin, rfl⟩⟩)
      by_contra hsome
      obtain ⟨u, hu⟩ := Option.ne_none_iff_exists'.mp hsome
      have hlookup := hasc.lookup_eq_some_iff.mpr ((mem_passed_iff hm hmem hw).mpr ⟨⟨hu, rfl⟩, e, hin, le_rfl⟩)
      rw [hnone] at hlookup
      exact absurd hlookup nofun
    · -- what is given late is a lowest entry
      have hsplit : T = a ++ e :: (c ++ (x, v, true) :: t₂) := by
        rw [ht, hac, List.append_assoc]
        rfl
      obtain ⟨k, u, low⟩ := e
      obtain rfl : low = true := hT.low_of_le hsplit he' hle
      exact .inr (.inr ⟨hT.prec_of_mem ht rfl hin rfl, (hT.exists_ge_iff hsplit k le_rfl).mp ⟨e', he', hle⟩⟩)

theorem exists_mem_of_ahead {w : K} (hw : x ≤ w) (h : Ahead dead prec ((fun k => lookup k m) :: ms) w x) :
    ∃ e ∈ overlay m₁ t₁, dead e.2.1 = false ∧ e.1 = w := by
  have hnodup : t₁.Nodup := (ht ▸ hT.nodup hb).sublist (List.sublist_append_left t₁ _)
  have hlive : ∀ e ∈ t₁, dead e.2.1 = false := fun e he => hT.live e (ht ▸ List.mem_append_left _ he)
  rcases h with ⟨⟨u, hu, hu'⟩, hle⟩ | ⟨hnone, h⟩ | ⟨hprec, hle⟩
  · have hpassed := (hT.exists_ge_iff ht w hw).mpr hle
    exact ⟨_, mem_overlay_left ((mem_passed_iff hm hmem hw).mpr ⟨⟨hu, rfl⟩, hpassed⟩), hu', rfl⟩
  · obtain ⟨e, he, rfl⟩ := (hT.ahead t₁ x v t₂ ht w hw).mpr h
    obtain ⟨a, c, hac⟩ := List.append_of_mem he
    refine ⟨e, (KV.mem_overlay_iff hasc hnodup).mpr (.inr ⟨a, c, hac, .inl ?_⟩), hlive e he, rfl⟩
    refine lookup_eq_none fun d hd hkey => ?_
    have hsome := ((mem_passed_iff hm hmem (hw.trans_eq hkey)).mp (show (d.1, d.2.1, d.2.2) ∈ m₁ from hd)).1.1
    rw [← hkey, show lookup e.1 m = none from hnone] at hsome
    exact absurd hsome nofun
  · -- the lowest entry of `w` is given, and before that of `x`
    have hlate : Overtaken dead prec ms w := hle
    obtain ⟨u, hu⟩ := hb.mem w x hprec
    have hin := hT.mem_of_prec hb ht ((hT.lowest w u).mpr ⟨hu, hlate.given hb⟩) hprec
    obtain ⟨a, c, hac⟩ := List.append_of_mem hin
    have hsplit : T = a ++ (w, u, true) :: (c ++ (x, v, true) :: t₂) := by
      rw [ht, hac, List.append_assoc]
      rfl
    exact ⟨_, (KV.mem_overlay_iff hasc hnodup).mpr (.inr ⟨a, c, hac, .inr
      ((hT.exists_ge_iff hsplit w le_rfl).mpr hle)⟩), hlive _ hin, rfl⟩

end Before

theorem ahead_over {l₁ l₂ : List (K × V × Bool)} {x : K} {v : V}
    (hsplit : liveOver dead m T = l₁ ++ (x, v, true) :: l₂) (w : K) (hw : x ≤ w) :
    (∃ e ∈ l₁, e.1 = w) ↔ Ahead dead prec ((fun k => lookup k m) :: ms) w x := by
  obtain ⟨t₁, t₂, m₁, ht, hasc, hmem, rfl⟩ := hT.over_split hb hm hsplit
  constructor
  · rintro ⟨e, he, rfl⟩
    obtain ⟨he, hlive⟩ := List.mem_filter.mp he
    rw [Bool.not_eq_true'] at hlive
    exact hT.ahead_of_mem hb hm ht hasc hmem he hlive hw
  · intro h
    obtain ⟨e, he, hlive, rfl⟩ := hT.exists_mem_of_ahead hb hm ht hasc hmem hw h
    exact ⟨e, List.mem_filter.mpr ⟨he, by rw [hlive]; rfl⟩, rfl⟩

/-- **One more upper list.** -/
theorem cons : Laid dead prec b ((fun k => lookup k m) :: ms) (liveOver dead m T) where
  live e he := by simpa using (List.mem_filter.mp he).2
  upper := hT.mem_over_upper hb hm
  lowest := hT.mem_over_lowest hb hm
  ascends := hT.ascends_over hm
  order := hT.order_over hm
  ahead _ _ _ _ hsplit := hT.ahead_over hb hm hsplit

end Laid

/-- **The merged list** of ascending lists over a list without dead entries. -/
theorem exists_laid (hb : ListedBy prec b) (hlive : ∀ e ∈ b, dead e.2 = false) {ms : List (List (K × V))}
    (hms : ∀ m ∈ ms, Ascending m) : ∃ T, Laid dead prec b (ms.map fun m k => lookup k m) T ∧
      T.map (fun e => (e.1, e.2.1)) = layered dead ms b := by
  induction ms with
  | nil =>
    refine ⟨_, laid_nil hb hlive, ?_⟩
    rw [List.map_map]
    exact List.map_id' b
  | cons m ms ih =>
    obtain ⟨T, hT, hmap⟩ := ih fun m hm => hms m (List.mem_cons_of_mem _ hm)
    refine ⟨_, hT.cons hb (hms m List.mem_cons_self), ?_⟩
    have hover := overlay_map Prod.fst (m.map fromUpper) T
    have hupper : (m.map fromUpper).map (fun e => (e.1, e.2.1)) = m := by
      rw [List.map_map]
      exact List.map_id' m
    rw [hupper, hmap] at hover
    rw [layered, List.foldr_cons, ← layered, hover, List.filter_map]
    rfl

/-! ### When nothing comes too late -/

/-- When the lowest list is ascending too, no entry comes too late. -/
theorem not_overtaken (hprec : ∀ w x, prec w x → w < x) (ms : List (K → Option V)) (x : K) :
    ¬Overtaken dead prec ms x := by
  induction ms generalizing x with
  | nil => exact fun ⟨w, hle, h⟩ => hle.not_gt (hprec w x h)
  | cons m ms ih =>
    rintro ⟨w, hle, ⟨-, w', hle', h⟩ | ⟨-, h⟩ | ⟨-, w', hle', h⟩⟩
    · exact ih x ⟨w', hle.trans hle', h⟩
    · exact ih x ⟨w, hle, h⟩
    · exact ih w ⟨w', hle', h⟩

/-- **Without dead entries**, an entry comes too late exactly when a larger key is before it in the lowest list. -/
theorem overtaken_iff (hb : ListedBy prec b) {ms : List (K → Option V)}
    (hms : ∀ m ∈ ms, ∀ k v, m k = some v → dead v = false) (x : K) :
    Overtaken dead prec ms x ↔ ∃ w, x < w ∧ prec w x := by
  constructor
  · rintro ⟨w, hle, h⟩
    induction ms generalizing w with
    | nil =>
      refine ⟨w, lt_of_le_of_ne hle ?_, h⟩
      rintro rfl
      exact hb.irrefl x h
    | cons m ms ih =>
      have hms' : ∀ m ∈ ms, ∀ k v, m k = some v → dead v = false := fun m hm => hms m (List.mem_cons_of_mem _ hm)
      rcases h with ⟨-, w', hle', h⟩ | ⟨-, h⟩ | ⟨hprec, w', hle', h⟩
      · exact ih hms' w' (hle.trans hle') h
      · exact ih hms' w hle h
      · exact ih hms' w' (hle.trans hle') (h.trans hb hprec)
  · rintro ⟨w, hlt, hprec⟩
    refine ⟨w, hlt.le, ?_⟩
    induction ms with
    | nil => exact hprec
    | cons m ms ih =>
      have h := ih fun m hm => hms m (List.mem_cons_of_mem _ hm)
      cases hw : m w with
      | none => exact .inr (.inl ⟨hw, h⟩)
      | some v => exact .inl ⟨⟨v, hw, hms m List.mem_cons_self w v hw⟩, w, le_rfl, h⟩

theorem given_iff {ms : List (K → Option V)} {x : K} {late : Prop}
    (h : ∀ ms', ms' <:+ ms → (Overtaken dead prec ms' x ↔ late)) :
    Given dead prec ms x ↔ (∀ m ∈ ms, m x = none) ∨ late := by
  induction ms with
  | nil => simp [Given]
  | cons m ms ih =>
    rw [Given, ih fun ms' hms' => h ms' (hms'.trans (List.suffix_cons m ms)), h ms (List.suffix_cons m ms),
      List.forall_mem_cons]
    tauto

end Laid

/-! ## The entries of one part -/

theorem filter_overlay {A : Type} [LinearOrder A] {f : K → A} (hf : Monotone f) {m b : List (K × V)}
    (hm : Ascending m) (hb : b.Pairwise fun e e' => f e.1 ≤ f e'.1) (a : A) :
    (overlay m b).filter (fun e => f e.1 = a) =
      overlay (m.filter fun e => f e.1 = a) (b.filter fun e => f e.1 = a) := by
  fun_induction overlay m b with
  | case1 b => simp
  | case2 m => simp
  | case3 mk mv m bk bv b hlt ih =>
    have hrest := ih hm hb.of_cons
    rw [List.filter_cons, hrest, List.filter_cons (x := (bk, bv))]
    split_ifs with hbk
    · refine (overlay_cons_of_lt fun e he => ?_).symm
      rcases List.mem_cons.mp (List.mem_filter.mp he).1 with rfl | he
      · exact hlt
      · exact hlt.trans (hm.head_lt e he)
    · rfl
  | case4 mk mv m bk bv b hle hlt ih =>
    have hrest := ih hm.tail hb
    rw [List.filter_cons, hrest, List.filter_cons (x := (mk, mv))]
    split_ifs with hmk
    · have hmk := of_decide_eq_true hmk
      by_cases hbk : f bk = a
      · have hcons : ((bk, bv) :: b).filter (fun e => f e.1 = a) = (bk, bv) :: b.filter fun e => f e.1 = a :=
          List.filter_cons_of_pos (decide_eq_true hbk)
        rw [hcons, overlay_cons_cons, if_neg hlt.not_gt, if_pos hlt]
      · -- the lower list has left the part
        have hnil : ((bk, bv) :: b).filter (fun e => f e.1 = a) = [] := by
          refine List.filter_eq_nil_iff.mpr fun e he hkey => hbk (le_antisymm ?_ (hmk ▸ hf hlt.le))
          rcases List.mem_cons.mp he with rfl | he
          · exact (of_decide_eq_true hkey).le
          · exact (List.rel_of_pairwise_cons hb he).trans (of_decide_eq_true hkey).le
        rw [hnil, overlay_nil_right, overlay_nil_right]
    · rfl
  | case5 mk mv m bk bv b hle hge ih =>
    obtain rfl : mk = bk := le_antisymm (not_lt.mp hle) (not_lt.mp hge)
    have hrest := ih hm.tail hb.of_cons
    rw [List.filter_cons, hrest, List.filter_cons (x := (mk, mv)), List.filter_cons (x := (mk, bv))]
    split_ifs with hmk
    · rw [overlay_cons_cons, if_neg (lt_irrefl mk), if_neg (lt_irrefl mk)]
    · rfl

end KV
