import IneryPersistence.Cdp.Invariant
import IneryPersistence.Dex.Operators
import IneryPersistence.Lib.Runs

/-!
# One operator for every owner

* `DexOperatorOp`, `Views.step`: the operations, and what they do to the maps;
* `OneOwner`: the owner map is the inverse of the owners of the operators;
* `OneOwner.byOwner`, `OneOwner.hasOwner_iff`: what the reads answer then;
* `OneOwner.step`: an operation that meets `Views.Free` keeps it; `Views.free_of_byOwner`: no other one leaves every
  operator where its owner finds it;
* **`one_operator_per_owner`**: the states of a run have one operator for every owner exactly if its operations
  meet `Free`;
* `taken_owner_hides_operator`: a run that does not.
-/

namespace Inery

open KV

/-- The operations that write operators; an update is made of what `GetDexOperator` returns. -/
inductive DexOperatorOp (DexID : Type)
  | create (id : DexID) (detail : DexOperatorDetail)
  | update (id : DexID) (detail : DexOperatorDetail)

namespace DexOperators

variable {DexID : Type} [LinearOrder DexID] [DbUtil IneryRegIDKey] {mainDexId : DexID}
  {dex0Owner : IneryRegID}

/-- The owner map holds the id of every operator under its owner, but for the main one as long as that
has the owner it was built in with. -/
structure OneOwner (mainDexId : DexID) (dex0Owner : IneryRegID) (v : Views DexID) : Prop where
  owned : ∀ id d, v.get mainDexId dex0Owner id = some d → v.owner ⟨d.ownerRegid⟩ = some (some id) ∨
    id = mainDexId ∧ d.ownerRegid = dex0Owner ∧ v.owner ⟨dex0Owner⟩ = none
  recorded : ∀ regid id, v.owner ⟨regid⟩ = some (some id) →
    ∃ d, v.detail id = some d ∧ d.ownerRegid = regid
  value : ∀ key, v.owner key ≠ some none
  named : ∀ key, v.owner key ≠ none → isEmpty key = false

namespace OneOwner

variable {v : Views DexID} (h : OneOwner mainDexId dex0Owner v)

include h

theorem ownerId_eq (regid : IneryRegID) : v.ownerId regid = v.owner ⟨regid⟩ := by
  unfold Views.ownerId
  cases ho : v.owner ⟨regid⟩ with
  | none => exact ite_self none
  | some o => rw [if_neg (by simp [h.named ⟨regid⟩ (by simp [ho])])]

theorem byOwner {id : DexID} {d : DexOperatorDetail} (hd : v.get mainDexId dex0Owner id = some d) :
    v.byOwner mainDexId dex0Owner d.ownerRegid = some (id, d) := by
  unfold Views.byOwner
  rw [h.ownerId_eq]
  rcases h.owned id d hd with ho | ⟨rfl, hown, ho⟩
  · rw [ho]
    simp [hd]
  · rw [hown, ho]
    simp [hd, hown]

theorem id_unique {id id' : DexID} {d d' : DexOperatorDetail}
    (hd : v.get mainDexId dex0Owner id = some d) (hd' : v.get mainDexId dex0Owner id' = some d')
    (heq : d.ownerRegid = d'.ownerRegid) : id = id' := by
  have hby := h.byOwner hd
  rw [heq, h.byOwner hd'] at hby
  exact (congrArg Prod.fst (Option.some.inj hby)).symm

omit h [DbUtil IneryRegIDKey] in
theorem get_of_detail (mainDexId : DexID) (dex0Owner : IneryRegID) {id : DexID} {d : DexOperatorDetail}
    (hd : v.detail id = some d) :
    v.get mainDexId dex0Owner id = some d := by
  rw [Views.get, hd, Option.some_or]

theorem hasOwner_iff (regid : IneryRegID) : v.hasOwner mainDexId dex0Owner regid = true ↔
    ∃ id d, v.get mainDexId dex0Owner id = some d ∧ d.ownerRegid = regid := by
  unfold Views.hasOwner
  rw [h.ownerId_eq]
  constructor
  · intro hhas
    rcases Bool.or_eq_true_iff.mp hhas with hsome | hmain
    · obtain ⟨o, ho⟩ := Option.isSome_iff_exists.mp hsome
      cases o with
      | none => exact absurd ho (h.value _)
      | some id =>
        obtain ⟨d, hd, hown⟩ := h.recorded regid id ho
        exact ⟨id, d, get_of_detail mainDexId dex0Owner hd, hown⟩
    · obtain ⟨-, hany⟩ := Bool.and_eq_true_iff.mp hmain
      obtain ⟨d, hd, hown⟩ := (Option.any_eq_true _ _).mp hany
      exact ⟨mainDexId, d, hd, of_decide_eq_true hown⟩
  · rintro ⟨id, d, hd, rfl⟩
    rcases h.owned id d hd with ho | ⟨rfl, hown, -⟩
    · simp [ho]
    · simp [hd, hown]

/-! ## Writes -/

omit h [DbUtil IneryRegIDKey] in
theorem get_update_self (owner : IneryRegIDKey → Option (Option DexID)) (id : DexID) (x : Option DexOperatorDetail) :
    (⟨Function.update v.detail (id : WithBot DexID) x, owner⟩ : Views DexID).get mainDexId dex0Owner id =
      x.or (if id = mainDexId then some (dex0 dex0Owner) else none) :=
  congrArg (Option.or · _) (Function.update_self ..)

omit h [DbUtil IneryRegIDKey] in
theorem get_update_of_ne (owner : IneryRegIDKey → Option (Option DexID)) {id id' : DexID} (hne : id' ≠ id)
    (x : Option DexOperatorDetail) :
    (⟨Function.update v.detail (id : WithBot DexID) x, owner⟩ : Views DexID).get mainDexId dex0Owner id' =
      v.get mainDexId dex0Owner id' :=
  congrArg (Option.or · _) (Function.update_of_ne (fun heq => hne (WithBot.coe_injective heq)) _ _)

omit h [DbUtil IneryRegIDKey] in
theorem key_ne {regid regid' : IneryRegID} (hne : regid ≠ regid') :
    (⟨regid⟩ : IneryRegIDKey) ≠ ⟨regid'⟩ := fun heq => hne (congrArg IneryRegIDKey.regid heq)

theorem owner_ne {regid : IneryRegID} (hfree : v.hasOwner mainDexId dex0Owner regid = false) {id : DexID}
    {d : DexOperatorDetail} (hd : v.get mainDexId dex0Owner id = some d) : d.ownerRegid ≠ regid := by
  intro heq
  have hhas := (h.hasOwner_iff regid).mpr ⟨id, d, hd, heq⟩
  rw [hfree] at hhas
  cases hhas

/-- **The owner map keeps step with an operator that gets a new owner**, or its first one. What `owner`
may lose are entries of owners that are left without an operator. -/
theorem assign {id : DexID} {d : DexOperatorDetail} {owner : IneryRegIDKey → Option (Option DexID)}
    (hkey : isEmpty (⟨d.ownerRegid⟩ : IneryRegIDKey) = false)
    (hfree : v.hasOwner mainDexId dex0Owner d.ownerRegid = false)
    (howner : ∀ key, owner key = v.owner key ∨ owner key = none)
    (hkeep : ∀ id' d', id' ≠ id → v.get mainDexId dex0Owner id' = some d' →
      owner ⟨d'.ownerRegid⟩ = v.owner ⟨d'.ownerRegid⟩)
    (hgone : ∀ d', v.detail id = some d' → owner ⟨d'.ownerRegid⟩ = none) :
    OneOwner mainDexId dex0Owner ⟨Function.update v.detail (id : WithBot DexID) (some d),
      Function.update owner ⟨d.ownerRegid⟩ (some (some id))⟩ where
  owned id' d' hd' := by
    by_cases hid : id' = id
    · subst hid
      rw [get_update_self, Option.some_or] at hd'
      obtain rfl := Option.some.inj hd'
      exact .inl (Function.update_self ..)
    · rw [get_update_of_ne _ hid] at hd'
      have hne := h.owner_ne hfree hd'
      rcases h.owned id' d' hd' with ho | ⟨rfl, hmain, ho⟩
      · refine .inl ?_
        dsimp only
        rw [Function.update_of_ne (key_ne hne), hkeep id' d' hid hd', ho]
      · refine .inr ⟨rfl, hmain, ?_⟩
        rw [hmain] at hne
        dsimp only
        rw [Function.update_of_ne (key_ne hne)]
        rcases howner ⟨dex0Owner⟩ with heq | heq
        · rw [heq, ho]
        · exact heq
  recorded regid id' ho := by
    dsimp only at ho ⊢
    by_cases hregid : regid = d.ownerRegid
    · subst hregid
      rw [Function.update_self] at ho
      obtain rfl := Option.some.inj (Option.some.inj ho)
      exact ⟨d, Function.update_self .., rfl⟩
    · rw [Function.update_of_ne (key_ne hregid)] at ho
      rcases howner ⟨regid⟩ with heq | heq
      · rw [heq] at ho
        obtain ⟨d', hd', hown⟩ := h.recorded regid id' ho
        have hid : id' ≠ id := by
          rintro rfl
          have hnone := hgone d' hd'
          rw [hown, heq, ho] at hnone
          cases hnone
        exact ⟨d', by rw [Function.update_of_ne fun he => hid (WithBot.coe_injective he), hd'], hown⟩
      · rw [heq] at ho
        cases ho
  value key := by
    dsimp only
    by_cases hk : key = ⟨d.ownerRegid⟩
    · rw [hk, Function.update_self]
      exact fun he => by cases he
    · rw [Function.update_of_ne hk]
      rcases howner key with heq | heq
      · rw [heq]
        exact h.value key
      · rw [heq]
        exact fun he => by cases he
  named key ho := by
    dsimp only at ho
    by_cases hk : key = ⟨d.ownerRegid⟩
    · rwa [hk]
    · rw [Function.update_of_ne hk] at ho
      rcases howner key with heq | heq
      · exact h.named key (heq ▸ ho)
      · exact absurd heq ho

theorem eraseOwner {d : DexOperatorDetail} (hmain : v.get mainDexId dex0Owner mainDexId = some d)
    (hown : d.ownerRegid = dex0Owner) : OneOwner mainDexId dex0Owner (v.eraseOwner dex0Owner) where
  owned id' d' hd' := by
    by_cases hid : id' = mainDexId
    · subst hid
      obtain rfl : d = d' := Option.some.inj (hmain.symm.trans hd')
      exact .inr ⟨rfl, hown, Function.update_self ..⟩
    · refine .inl ((Function.update_of_ne (key_ne fun heq => hid ?_) _ _).trans ?_)
      · exact h.id_unique hd' hmain (heq.trans hown.symm)
      · rcases h.owned id' d' hd' with ho | ⟨hid', -⟩
        · exact ho
        · exact absurd hid' hid
  recorded regid id' ho := by
    by_cases hregid : regid = dex0Owner
    · subst hregid
      have hnone : (v.eraseOwner regid).owner ⟨regid⟩ = none := Function.update_self ..
      rw [hnone] at ho
      cases ho
    · exact h.recorded regid id' ((Function.update_of_ne (key_ne hregid) _ _).symm.trans ho)
  value key ho := by
    by_cases hkey : key = ⟨dex0Owner⟩
    · have hnone : (v.eraseOwner dex0Owner).owner key = none := by rw [hkey]; exact Function.update_self ..
      rw [hnone] at ho
      cases ho
    · exact h.value key ((Function.update_of_ne hkey _ _).symm.trans ho)
  named key ho := by
    by_cases hkey : key = ⟨dex0Owner⟩
    · exact absurd (by rw [hkey]; exact Function.update_self ..) ho
    · exact h.named key fun hnone => ho ((Function.update_of_ne hkey _ _).trans hnone)

end OneOwner

section Records

variable [DbUtil DexOperatorDetail] {v : Views DexID}

theorem setOwner_setDetail {id : DexID} {detail : DexOperatorDetail} (hdetail : isEmpty detail = false)
    (hkey : isEmpty (⟨detail.ownerRegid⟩ : IneryRegIDKey) = false) :
    (v.setDetail id detail).setOwner detail.ownerRegid id =
      ⟨Function.update v.detail (id : WithBot DexID) (some detail),
        Function.update v.owner ⟨detail.ownerRegid⟩ (some (some id))⟩ := by
  rw [Views.setOwner, Views.setDetail, live_of_not_isEmpty hdetail, hkey, if_neg Bool.false_ne_true]

variable (hdetail : ∀ d : DexOperatorDetail, isEmpty (⟨d.ownerRegid⟩ : IneryRegIDKey) = false →
  isEmpty d = false)

include hdetail

/-- An operator keeps an owner that its new record has too, also when the record counts as empty and leaves the main
operator as it was built in. -/
theorem OneOwner.ownerRegid_setDetail (h : OneOwner mainDexId dex0Owner v) {id : DexID}
    {oldDetail detail d : DexOperatorDetail} (hold : v.get mainDexId dex0Owner id = some oldDetail)
    (hsame : oldDetail.ownerRegid = detail.ownerRegid)
    (hd : (v.setDetail id detail).get mainDexId dex0Owner id = some d) : d.ownerRegid = oldDetail.ownerRegid := by
  rw [Views.setDetail, get_update_self] at hd
  cases hempty : isEmpty detail with
  | false =>
    rw [live_of_not_isEmpty hempty, Option.some_or] at hd
    rw [hsame, Option.some.inj hd]
  | true =>
    rw [live_of_isEmpty hempty, Option.none_or] at hd
    split_ifs at hd
    obtain rfl := Option.some.inj hd
    rcases h.owned id oldDetail hold with ho | ⟨-, hown, -⟩
    · have hkey := hdetail detail (hsame ▸ h.named _ (by simp [ho]))
      rw [hempty] at hkey
      cases hkey
    · exact hown.symm

theorem OneOwner.setDetail (h : OneOwner mainDexId dex0Owner v) {id : DexID} {oldDetail detail : DexOperatorDetail}
    (hold : v.get mainDexId dex0Owner id = some oldDetail) (hsame : oldDetail.ownerRegid = detail.ownerRegid) :
    OneOwner mainDexId dex0Owner (v.setDetail id detail) where
  owned id' d' hd' := by
    by_cases hid : id' = id
    · subst hid
      rw [h.ownerRegid_setDetail hdetail hold hsame hd']
      exact h.owned id' oldDetail hold
    · rw [Views.setDetail, get_update_of_ne _ hid] at hd'
      exact h.owned id' d' hd'
  recorded regid id' ho := by
    obtain ⟨d', hd', hown⟩ := h.recorded regid id' ho
    by_cases hid : id' = id
    · subst hid
      obtain rfl : oldDetail = d' := Option.some.inj (hold.symm.trans (get_of_detail mainDexId dex0Owner hd'))
      have hlive := live_of_not_isEmpty (hdetail detail (by
        rw [← hsame, hown]
        exact h.named ⟨regid⟩ (by simp [show v.owner ⟨regid⟩ = _ from ho])))
      exact ⟨detail, (Function.update_self ..).trans hlive, hsame.symm.trans hown⟩
    · exact ⟨d', (Function.update_of_ne (fun heq => hid (WithBot.coe_injective heq)) _ _).trans hd', hown⟩
  value := h.value
  named := h.named

end Records

/-! ## One operation on the maps -/

section Step

variable [DbUtil DexOperatorDetail] (v : Views DexID) (mainDexId : DexID) (dex0Owner : IneryRegID)

/-- One operation on the maps. -/
def Views.step : DexOperatorOp DexID → Views DexID
  | .create id detail => v.create mainDexId dex0Owner id detail
  | .update id detail => ((v.get mainDexId dex0Owner id).map fun oldDetail => v.update id oldDetail detail).getD v

/-- `DexOperators.Free`, on the maps. -/
def Views.Free : DexOperatorOp DexID → Prop
  | .create id detail => isEmpty (⟨detail.ownerRegid⟩ : IneryRegIDKey) = false ∨ isEmpty detail = true ∨
      (v.detail id).isSome = true ∨ v.hasOwner mainDexId dex0Owner detail.ownerRegid = true
  | .update id detail => ∀ oldDetail, v.get mainDexId dex0Owner id = some oldDetail →
      oldDetail.ownerRegid ≠ detail.ownerRegid →
        isEmpty (⟨oldDetail.ownerRegid⟩ : IneryRegIDKey) = true ∨
        isEmpty (⟨detail.ownerRegid⟩ : IneryRegIDKey) = false ∧
          v.hasOwner mainDexId dex0Owner detail.ownerRegid = false ∨
        isEmpty (⟨detail.ownerRegid⟩ : IneryRegIDKey) = true ∧ id = mainDexId ∧ oldDetail.ownerRegid = dex0Owner

variable {v mainDexId dex0Owner}

omit [DbUtil DexOperatorDetail] in
/-- Who is found without an entry of the owner map is the main operator. -/
theorem eq_main_of_byOwner {regid : IneryRegID} {id : DexID} {d : DexOperatorDetail}
    (ho : v.ownerId regid = none) (hby : v.byOwner mainDexId dex0Owner regid = some (id, d)) :
    id = mainDexId ∧ dex0Owner = regid := by
  rw [Views.byOwner, ho] at hby
  dsimp only at hby
  split_ifs at hby with hmain
  obtain ⟨d', -, heq⟩ := Option.map_eq_some_iff.mp hby
  exact ⟨(congrArg Prod.fst heq).symm, hmain⟩

variable (hdetail : ∀ d : DexOperatorDetail, isEmpty (⟨d.ownerRegid⟩ : IneryRegIDKey) = false →
  isEmpty d = false)

include hdetail

/-- **One operation** keeps the owner map in step. -/
theorem OneOwner.step (h : OneOwner mainDexId dex0Owner v) {op : DexOperatorOp DexID}
    (hop : v.Free mainDexId dex0Owner op) : OneOwner mainDexId dex0Owner (v.step mainDexId dex0Owner op) := by
  cases op with
  | create id detail =>
    show OneOwner mainDexId dex0Owner (v.create mainDexId dex0Owner id detail)
    unfold Views.create
    split_ifs with href
    · exact h
    · obtain ⟨hid, hown⟩ := not_or.mp (mt Bool.or_eq_true_iff.mpr href)
      have hnone : v.detail id = none := Option.not_isSome_iff_eq_none.mp hid
      rcases hop with hkey | hempty | hsome | hhas
      · rw [setOwner_setDetail (hdetail _ hkey) hkey]
        refine h.assign hkey (Bool.eq_false_iff.mpr hown) (fun _ => .inl rfl) (fun _ _ _ _ => rfl) fun d' hd' => ?_
        rw [hnone] at hd'
        cases hd'
      · -- an empty record, whose owner is empty then, is not written
        have hkey : isEmpty (⟨detail.ownerRegid⟩ : IneryRegIDKey) = true := by
          by_contra hkey
          rw [hdetail detail (Bool.eq_false_iff.mpr hkey)] at hempty
          cases hempty
        rw [Views.setOwner, Views.setDetail, hkey, if_pos rfl, live_of_isEmpty hempty,
          Function.update_eq_self_iff.mpr hnone.symm]
        exact h
      · exact absurd hsome hid
      · exact absurd hhas hown
  | update id detail =>
    show OneOwner mainDexId dex0Owner (((v.get mainDexId dex0Owner id).map fun oldDetail =>
      v.update id oldDetail detail).getD v)
    cases hold : v.get mainDexId dex0Owner id with
    | none => exact h
    | some oldDetail =>
      show OneOwner mainDexId dex0Owner (v.update id oldDetail detail)
      unfold Views.update
      split_ifs with hsame hkeyOld hkey
      · exact h.setDetail hdetail hold hsame
      · exact h
      · rcases hop oldDetail hold hsame with hkeyOld' | ⟨hkey', -⟩ | ⟨-, rfl, hmain⟩
        · exact absurd hkeyOld' hkeyOld
        · rw [hkey] at hkey'
          cases hkey'
        · rw [hmain]
          exact h.eraseOwner hold hmain
      · rcases hop oldDetail hold hsame with hkeyOld' | ⟨hkey', hfree⟩ | ⟨hkey', -⟩
        · exact absurd hkeyOld' hkeyOld
        · show OneOwner mainDexId dex0Owner
            (((v.eraseOwner oldDetail.ownerRegid).setDetail id detail).setOwner detail.ownerRegid id)
          rw [setOwner_setDetail (hdetail _ hkey') hkey']
          refine h.assign hkey' hfree (fun key => ?_) (fun id' d' hid hd' => ?_) fun d' hd' => ?_
          · by_cases hk : key = ⟨oldDetail.ownerRegid⟩
            · exact .inr (by rw [hk]; exact Function.update_self ..)
            · exact .inl (Function.update_of_ne hk _ _)
          · refine Function.update_of_ne (key_ne fun heq => hid ?_) _ _
            exact h.id_unique hd' hold heq
          · obtain rfl : oldDetail = d' := Option.some.inj (hold.symm.trans (get_of_detail mainDexId dex0Owner hd'))
            exact Function.update_self ..
        · exact absurd hkey' hkey

/-- **No other operation** leaves every operator where its owner finds it. -/
theorem Views.free_of_byOwner (h : OneOwner mainDexId dex0Owner v) {op : DexOperatorOp DexID}
    (hby : ∀ id d, (v.step mainDexId dex0Owner op).get mainDexId dex0Owner id = some d →
      (v.step mainDexId dex0Owner op).byOwner mainDexId dex0Owner d.ownerRegid = some (id, d)) :
    v.Free mainDexId dex0Owner op := by
  cases op with
  | create id detail =>
    by_contra hop
    obtain ⟨hkey, hempty, hid, hown⟩ : _ ∧ _ ∧ _ ∧ _ := by simpa only [Views.Free, not_or] using hop
    have hkey := Bool.eq_true_of_not_eq_false hkey
    have hlive := live_of_not_isEmpty (Bool.eq_false_iff.mpr hempty)
    have hstep : v.step mainDexId dex0Owner (.create id detail) =
        (v.setDetail id detail).setOwner detail.ownerRegid id :=
      if_neg fun href => (Bool.or_eq_true_iff.mp href).elim hid hown
    have hget : (v.setDetail id detail).get mainDexId dex0Owner id = some detail := by
      rw [Views.setDetail, OneOwner.get_update_self, hlive, Option.some_or]
    rw [hstep] at hby
    -- the new operator has no entry under its owner
    obtain ⟨rfl, hmain⟩ := eq_main_of_byOwner (if_pos hkey) (hby id detail hget)
    refine hown ?_
    have hdex0 : v.get id dex0Owner id = some (dex0 dex0Owner) := by
      rw [Views.get, Option.not_isSome_iff_eq_none.mp hid, Option.none_or, if_pos rfl]
    exact (h.hasOwner_iff _).mpr ⟨id, dex0 dex0Owner, hdex0, hmain⟩
  | update id detail =>
    intro oldDetail hold hne
    by_cases hkeyOld : isEmpty (⟨oldDetail.ownerRegid⟩ : IneryRegIDKey) = true
    · exact .inl hkeyOld
    refine .inr ?_
    have hstep : v.step mainDexId dex0Owner (.update id detail) = v.update id oldDetail detail := by
      rw [Views.step, hold]
      rfl
    rw [hstep, Views.update, if_neg hne, if_neg hkeyOld] at hby
    by_cases hkey : isEmpty (⟨detail.ownerRegid⟩ : IneryRegIDKey) = true
    · -- the old owner has lost its entry
      rw [if_pos hkey] at hby
      have ho : (v.eraseOwner oldDetail.ownerRegid).ownerId oldDetail.ownerRegid = none := by
        rw [Views.ownerId, if_neg hkeyOld]
        exact Function.update_self ..
      obtain ⟨hid, hmain⟩ := eq_main_of_byOwner ho (hby id oldDetail hold)
      exact .inr ⟨hkey, hid, hmain.symm⟩
    · -- two operators of one owner would be found by it
      rw [if_neg hkey] at hby
      refine .inl ⟨Bool.eq_false_iff.mpr hkey, Bool.eq_false_iff.mpr fun hhas => ?_⟩
      obtain ⟨id', d', hd', hown⟩ := (h.hasOwner_iff _).mp hhas
      have hid : id' ≠ id := by
        rintro rfl
        obtain rfl : oldDetail = d' := Option.some.inj (hold.symm.trans hd')
        exact hne hown
      have hget' := hby id' d' ((OneOwner.get_update_of_ne _ hid _).trans hd')
      have hlive := live_of_not_isEmpty (hdetail _ (Bool.eq_false_iff.mpr hkey))
      have hget := hby id detail (by rw [Views.setDetail, OneOwner.get_update_self, hlive, Option.some_or])
      rw [hown, hget] at hget'
      exact hid (congrArg Prod.fst (Option.some.inj hget')).symm

end Step

end DexOperators

/-! ## Runs -/

namespace DexOperators

variable {DexID : Type} [LinearOrder DexID] [Serial (WithBot DexID)] [Serial DexOperatorDetail]
  [DbUtil DexOperatorDetail] [Serial IneryRegIDKey] [DbUtil IneryRegIDKey] [Serial (Option DexID)]
  (acc : CDBAccess) (mainDexId : DexID) (dex0Owner : IneryRegID)

/-- One operation of a run. -/
def step (st : DexOperators DexID) : DexOperatorOp DexID → Option (DexOperators DexID)
  | .create id detail => some (st.createDexOperator acc mainDexId dex0Owner id detail).2
  | .update id detail =>
    match st.getDexOperator acc mainDexId dex0Owner id with
    | (some oldDetail, st) => some (st.updateDexOperator acc id oldDetail detail).2
    | (none, st) => some st

/-- A creation names an owner, unless it is refused or what it stores counts as no record. An update that changes
the owner names one without an operator. It may name none when an empty old owner stops it, or when it only takes the
entry of the main operator out of the owner map, while this has the owner that it was built in with. -/
def Free (st : DexOperators DexID) : DexOperatorOp DexID → Prop
  | .create id detail => isEmpty (⟨detail.ownerRegid⟩ : IneryRegIDKey) = false ∨ isEmpty detail = true ∨
      (CacheStack.hasData acc .dexOperatorDetail st.operatorDetailCache (id : WithBot DexID)).2 = true ∨
      (st.hasDexOperatorByOwner acc mainDexId dex0Owner detail.ownerRegid).1 = true
  | .update id detail => ∀ oldDetail, (st.getDexOperator acc mainDexId dex0Owner id).1 = some oldDetail →
      oldDetail.ownerRegid ≠ detail.ownerRegid →
        isEmpty (⟨oldDetail.ownerRegid⟩ : IneryRegIDKey) = true ∨
        isEmpty (⟨detail.ownerRegid⟩ : IneryRegIDKey) = false ∧
          (st.hasDexOperatorByOwner acc mainDexId dex0Owner detail.ownerRegid).1 = false ∨
        isEmpty (⟨detail.ownerRegid⟩ : IneryRegIDKey) = true ∧ id = mainDexId ∧ oldDetail.ownerRegid = dex0Owner

/-- Every operator is the only one of its owner, and found by it. -/
structure OnePerOwner (st : DexOperators DexID) : Prop where
  byOwner : ∀ id detail, (st.getDexOperator acc mainDexId dex0Owner id).1 = some detail →
    (st.getDexOperatorByOwner acc mainDexId dex0Owner detail.ownerRegid).1 = some (id, detail)
  unique : ∀ id id' detail detail', (st.getDexOperator acc mainDexId dex0Owner id).1 = some detail →
    (st.getDexOperator acc mainDexId dex0Owner id').1 = some detail' →
      detail.ownerRegid = detail'.ownerRegid → id = id'
  has : ∀ regid, (st.hasDexOperatorByOwner acc mainDexId dex0Owner regid).1 = true ↔
    ∃ id detail, (st.getDexOperator acc mainDexId dex0Owner id).1 = some detail ∧
      detail.ownerRegid = regid

variable {acc mainDexId dex0Owner}

omit [DbUtil IneryRegIDKey] in
theorem getDexOperator_fst {st : DexOperators DexID} (hst : st.Built) (id : DexID) :
    (st.getDexOperator acc mainDexId dex0Owner id).1 = (st.views acc).get mainDexId dex0Owner id := by
  obtain ⟨_, heq, -⟩ := getDexOperator_spec acc mainDexId dex0Owner hst id
  rw [heq]

theorem hasDexOperatorByOwner_fst {st : DexOperators DexID} (hst : st.Built) (regid : IneryRegID) :
    (st.hasDexOperatorByOwner acc mainDexId dex0Owner regid).1 =
      (st.views acc).hasOwner mainDexId dex0Owner regid := by
  obtain ⟨_, heq, -⟩ := hasDexOperatorByOwner_spec acc mainDexId dex0Owner hst regid
  rw [heq]

theorem onePerOwner {st : DexOperators DexID} (hst : st.Built)
    (h : OneOwner mainDexId dex0Owner (st.views acc)) : st.OnePerOwner acc mainDexId dex0Owner where
  byOwner id detail hd := by
    rw [getDexOperator_fst hst] at hd
    rw [getDexOperatorByOwner_spec acc mainDexId dex0Owner hst, h.byOwner hd]
  unique id id' detail detail' hd hd' hown := by
    rw [getDexOperator_fst hst] at hd hd'
    exact h.id_unique hd hd' hown
  has regid := by
    simp only [hasDexOperatorByOwner_fst hst, getDexOperator_fst hst]
    exact h.hasOwner_iff regid

theorem free_iff {st : DexOperators DexID} (hst : st.Built) (op : DexOperatorOp DexID) :
    st.Free acc mainDexId dex0Owner op ↔ (st.views acc).Free mainDexId dex0Owner op := by
  cases op with
  | create id detail =>
    obtain ⟨_, hget, -⟩ := CacheStack.getData_spec acc .dexOperatorDetail
      (show isEmpty (id : WithBot DexID) = false from rfl) hst.1
    rw [Free, hasDexOperatorByOwner_fst hst, CacheStack.hasData_eq, hget]
    exact Iff.rfl
  | update id detail =>
    simp only [Free, Views.Free, getDexOperator_fst hst, hasDexOperatorByOwner_fst hst]

variable (acc mainDexId dex0Owner) in
/-- **One operation on the caches** is the operation on their maps. -/
theorem step_spec {st : DexOperators DexID} (hst : st.Built) (op : DexOperatorOp DexID) : ∃ st',
    step acc mainDexId dex0Owner st op = some st' ∧ st'.Built ∧
      st'.views acc = (st.views acc).step mainDexId dex0Owner op := by
  cases op with
  | create id detail =>
    obtain ⟨r, st', heq, hst', hv⟩ := createDexOperator_spec acc mainDexId dex0Owner hst id detail
    exact ⟨st', by rw [step, heq], hst', hv⟩
  | update id detail =>
    obtain ⟨st₁, hget, hst₁, hv₁⟩ := getDexOperator_spec acc mainDexId dex0Owner hst id
    rw [Views.step]
    cases hold : (st.views acc).get mainDexId dex0Owner id with
    | none => exact ⟨st₁, by rw [step, hget, hold], hst₁, hv₁⟩
    | some oldDetail =>
      obtain ⟨r, st', heq, hst', hv⟩ := updateDexOperator_spec acc hst₁ id oldDetail detail
      refine ⟨st', ?_, hst', by rw [hv, hv₁]; rfl⟩
      rw [step, hget, hold]
      exact congrArg (fun r => some (Prod.snd r)) heq

variable (acc mainDexId dex0Owner) in
theorem exists_run {st : DexOperators DexID} (hst : st.Built) (ops : List (DexOperatorOp DexID)) :
    ∃ st', run (step acc mainDexId dex0Owner) st ops = some st' := by
  obtain ⟨st', hrun, -⟩ := run_exists (step acc mainDexId dex0Owner) (I := Built)
    (fun st op hst (_ : True) => (step_spec acc mainDexId dex0Owner hst op).imp fun _ h => ⟨h.1, h.2.1⟩) hst
    (allSteps_of_forall _ (fun _ _ => trivial) st ops)
  exact ⟨st', hrun⟩

section Runs

variable (hdetail : ∀ d : DexOperatorDetail, isEmpty (⟨d.ownerRegid⟩ : IneryRegIDKey) = false →
  isEmpty d = false)

include hdetail

theorem step_oneOwner {st st' : DexOperators DexID} {op : DexOperatorOp DexID}
    (h : st.Built ∧ OneOwner mainDexId dex0Owner (st.views acc)) (hs : step acc mainDexId dex0Owner st op = some st')
    (hop : st.Free acc mainDexId dex0Owner op) : st'.Built ∧ OneOwner mainDexId dex0Owner (st'.views acc) := by
  obtain ⟨_, heq, hst', hv⟩ := step_spec acc mainDexId dex0Owner h.1 op
  obtain rfl := Option.some.inj (hs.symm.trans heq)
  exact ⟨hst', hv ▸ h.2.step hdetail ((free_iff h.1 op).mp hop)⟩

theorem free_of_onePerOwner {st st' : DexOperators DexID} {op : DexOperatorOp DexID}
    (h : st.Built ∧ OneOwner mainDexId dex0Owner (st.views acc)) (hs : step acc mainDexId dex0Owner st op = some st')
    (hone : st'.OnePerOwner acc mainDexId dex0Owner) : st.Free acc mainDexId dex0Owner op := by
  obtain ⟨_, heq, hst', hv⟩ := step_spec acc mainDexId dex0Owner h.1 op
  obtain rfl := Option.some.inj (hs.symm.trans heq)
  refine (free_iff h.1 op).mpr (Views.free_of_byOwner hdetail h.2 fun id d hd => ?_)
  rw [← hv, ← getDexOperator_fst hst'] at hd
  rw [← hv, ← getDexOperatorByOwner_spec acc mainDexId dex0Owner hst']
  exact hone.byOwner id d hd

theorem forall_onePerOwner_iff {st : DexOperators DexID}
    (h : st.Built ∧ OneOwner mainDexId dex0Owner (st.views acc)) (ops : List (DexOperatorOp DexID)) :
    (∀ ops', ops' <+: ops → ∀ st', run (step acc mainDexId dex0Owner) st ops' = some st' →
      st'.OnePerOwner acc mainDexId dex0Owner) ↔
      AllSteps (step acc mainDexId dex0Owner) (Free acc mainDexId dex0Owner) st ops := by
  rw [forall_run_iff_part (step acc mainDexId dex0Owner)
    (I := fun st => st.Built ∧ OneOwner mainDexId dex0Owner (st.views acc)) (fun _ hI => onePerOwner hI.1 hI.2)
    (fun _ _ _ hI hs hone => step_oneOwner hdetail hI hs (free_of_onePerOwner hdetail hI hs hone)) h]
  refine forall_run_iff (step acc mainDexId dex0Owner)
    (fun st op hI => ⟨fun hkeep => ?_, fun hop st' hs => step_oneOwner hdetail hI hs hop⟩) h ops
  obtain ⟨st', hs, -⟩ := step_spec acc mainDexId dex0Owner hI.1 op
  obtain ⟨hst', h'⟩ := hkeep st' hs
  exact free_of_onePerOwner hdetail hI hs (onePerOwner hst' h')

/-- **One operator for every owner.** From caches without operators, all states that a run passes have it exactly if
the operations of the run meet `Free`. -/
theorem one_operator_per_owner {st : DexOperators DexID} (hst : st.Built)
    (hempty : st.views acc = ⟨fun _ => none, fun _ => none⟩) {ops : List (DexOperatorOp DexID)} :
    (∀ ops', ops' <+: ops → ∃ st', run (step acc mainDexId dex0Owner) st ops' = some st' ∧
      st'.OnePerOwner acc mainDexId dex0Owner) ↔
      AllSteps (step acc mainDexId dex0Owner) (Free acc mainDexId dex0Owner) st ops := by
  have hstart : OneOwner mainDexId dex0Owner (st.views acc) := by
    rw [hempty]
    refine ⟨fun id d hd => ?_, nofun, nofun, fun key ho => absurd rfl ho⟩
    unfold Views.get at hd
    rw [Option.none_or] at hd
    split_ifs at hd with hid
    obtain rfl := Option.some.inj hd
    exact .inr ⟨hid, rfl, rfl⟩
  rw [← forall_onePerOwner_iff hdetail ⟨hst, hstart⟩]
  refine forall₂_congr fun ops' _ => ?_
  obtain ⟨st', hrun⟩ := exists_run acc mainDexId dex0Owner hst ops'
  rw [hrun]
  exact ⟨fun ⟨_, heq, hone⟩ _ heq' => Option.some.inj (heq.symm.trans heq') ▸ hone, fun h => ⟨st', rfl, h st' rfl⟩⟩

end Runs

end DexOperators

/-! ## Two runs -/

namespace BigEndianKeys

/-- The fields of an operator, one after the other; the open mode is a string of one byte or none. -/
abbrev OperatorFields := IneryRegIDKey ×ₗ IneryRegIDKey ×ₗ Bytes ×ₗ Bytes ×ₗ Bytes ×ₗ CFixedUInt64 ×ₗ
  CFixedUInt64 ×ₗ Byte

def modeBytes : OpenMode → Bytes
  | .PUBLIC => []
  | .other mode => [mode.toFin]

def modeOfBytes : Bytes → OpenMode
  | [mode] => .other ⟨⟨mode⟩⟩
  | _ => .PUBLIC

scoped instance : Serial DexOperatorDetail where
  ser d := ser (toLex (⟨d.ownerRegid⟩, toLex (⟨d.feeReceiverRegid⟩, toLex (d.name, toLex (d.portalUrl,
    toLex (modeBytes d.orderOpenMode, toLex (⟨d.takerFeeRatio⟩, toLex (⟨d.makerFeeRatio⟩,
      if d.activated then 1 else 0))))))) : OperatorFields)
  unser bytes := (unser (α := OperatorFields) bytes).map fun
    | ((owner, receiver, name, url, mode, taker, maker, activated), rest) =>
      (⟨owner.regid, receiver.regid, name, url, modeOfBytes mode, taker.value, maker.value,
        activated == 1⟩, rest)

scoped instance : DbUtil DexOperatorDetail where
  dflt := ⟨toLex (0, 0), toLex (0, 0), [], [], .PUBLIC, 0, 0, false⟩
  isEmpty d := d.ownerRegid == toLex (0, 0) && d.name.isEmpty
  setEmpty d := { d with ownerRegid := toLex (0, 0), name := [] }

scoped instance : Serial (WithBot Uint256) := inferInstanceAs (Serial (Option Uint256))

/-- The operator of an owner. -/
def operatorOf (owner : IneryRegID) : DexOperatorDetail := { dex0 owner with name := bytesOf "dex" }

/-- Caches of one level over an empty database. -/
def noOperators : DexOperators Uint256 := ⟨[⟨∅, false, 0⟩], [⟨∅, false, 0⟩], none⟩

theorem isEmpty_of_owner (d : DexOperatorDetail)
    (h : isEmpty (⟨d.ownerRegid⟩ : IneryRegIDKey) = false) : isEmpty d = false := by
  refine Bool.eq_false_iff.mpr fun he => ?_
  have hzero := eq_of_beq (Bool.and_eq_true_iff.mp he).1
  rw [hzero] at h
  exact absurd h (by decide)

/-- Two operators are made, the main one is given to a third owner, and the first one to the owner that the
main one had. -/
theorem one_operator_per_owner_run :
    let ops : List (DexOperatorOp Uint256) := [.create 1 (operatorOf (toLex (7, 1))),
      .create 2 (operatorOf (toLex (7, 2))), .update 0 (operatorOf (toLex (7, 3))),
      .update 1 (operatorOf (toLex (5, 1)))]
    ∃ st', run (DexOperators.step ⟨.dex, ∅⟩ 0 (toLex (5, 1))) noOperators ops = some st' ∧
      st'.OnePerOwner ⟨.dex, ∅⟩ 0 (toLex (5, 1)) := by
  intro ops
  have hops : AllSteps (DexOperators.step ⟨.dex, ∅⟩ 0 (toLex (5, 1)))
      (DexOperators.Free ⟨.dex, ∅⟩ 0 (toLex (5, 1))) noOperators ops := by
    refine ⟨.inl rfl, fun st₁ h₁ => ?_⟩
    obtain rfl := Option.some.inj h₁
    refine ⟨.inl rfl, fun st₂ h₂ => ?_⟩
    obtain rfl := Option.some.inj h₂
    refine ⟨fun oldDetail _ _ => .inr (.inl ⟨rfl, by decide +kernel⟩), fun st₃ h₃ => ?_⟩
    obtain rfl := Option.some.inj h₃
    exact ⟨fun oldDetail _ _ => .inr (.inl ⟨rfl, by decide +kernel⟩), fun _ _ => trivial⟩
  exact (DexOperators.one_operator_per_owner isEmpty_of_owner ⟨List.cons_ne_nil _ _, List.cons_ne_nil _ _⟩ rfl).mpr
    hops ops List.prefix_rfl

/-- The second operator is given to the owner of the first one, who then finds only the second. -/
theorem taken_owner_hides_operator :
    (run (DexOperators.step ⟨.dex, ∅⟩ 0 (toLex (5, 1))) noOperators
      [.create 1 (operatorOf (toLex (7, 1))), .create 2 (operatorOf (toLex (7, 2))),
        .update 2 (operatorOf (toLex (7, 1)))]).map (fun st =>
      ((st.getDexOperator ⟨.dex, ∅⟩ 0 (toLex (5, 1)) 1).1,
        (st.getDexOperatorByOwner ⟨.dex, ∅⟩ 0 (toLex (5, 1)) (toLex (7, 1))).1)) =
      some (some (operatorOf (toLex (7, 1))), some (2, operatorOf (toLex (7, 1)))) := by
  decide +kernel

end BigEndianKeys

end Inery
