import AttributeStore.Proofs.Lock
import AttributeStore.Proofs.Permanence

/-!
# Where composite holders come from

A holder is composite if a plain write made it or if a caller asked for such a holder.  A copy is of
the kind of its original, whether a caller makes it or an import, so that the kind of a holder is
decided at the other end of its chain of copies.  The entry of a key is among the composite ones of
its map if the last write that took effect there was a plain one or the import of a composite
holder.  Plain writes that meet a lock take no effect.

## Main definitions

* `Store.Makes`, `Store.MakesComposite`, `Store.Copies`: the single operations that make a holder.
* `Store.OfCompositeOrigin`: holders whose chain of copies leads back to one that was made
  composite.
* `Store.TakesEffect`: the single operations that fill a slot or empty it.
* `Store.Reclassifies`: what a write to a slot does to its place among the composite ones.

## Main results

* `Store.isComposite_apply_iff`, `Store.isComposite_run_iff`: the composite holders after a single
  operation and after a run.
* `Store.IsLast.holder_of_fills`, `Store.isComposite_iff_of_isLast`: the holder that the last write
  to a slot has left there.
* `Store.composites_of_run`: which entries of a map are composite.
-/

namespace AttributeStore

namespace Store

/-- A single operation that makes a holder, which gets the next identifier. -/
inductive Makes (store : Store) : Operation → Holder → Prop
  | newHolder (v : Value) (kind : HolderKind) : Makes store (.newHolder v kind) (.fresh v kind)
  | cloneHolder (id : HolderId) : Makes store (.cloneHolder id) (store.holder id)
  | write {m : MapId} {key : String} {step : Operation} {new : Holder}
      (hfills : store.Fills m key step new) : Makes store step new

/-- A single operation that makes a composite holder anew: a plain write to some map that is
accepted, or a caller who asks for such a holder. -/
inductive MakesComposite (store : Store) : Operation → Prop
  | set {m : MapId} {key : String} (v : Value) (hm : store.HasMap m) (hname : IsValidName key)
      (hopen : store.IsOpen m key) : MakesComposite store (.write m (.set key v))
  | newHolder (v : Value) : MakesComposite store (.newHolder v .composite)

/-- A single operation that makes a copy of a holder. -/
inductive Copies (store : Store) (original : HolderId) : Operation → Prop
  | cloneHolder (hid : store.HasHolder original) : Copies store original (.cloneHolder original)
  | importHolder {m : MapId} (key : String) (hm : store.HasMap m)
      (hid : store.HasHolder original) :
      Copies store original (.write m (.importAll [(key, .holder original)]))

/-- A holder that single operations on the empty store have made, and whose chain of copies leads
back to a holder that was made composite. -/
inductive OfCompositeOrigin (steps : List Operation) : HolderId → Prop
  | made {before after : List Operation} {step : Operation}
      (hsteps : steps = before ++ step :: after) (hmakes : (empty.run before).MakesComposite step) :
      OfCompositeOrigin steps (empty.run before).pool.nextId
  | copied {before after : List Operation} {step : Operation} {original : HolderId}
      (hsteps : steps = before ++ step :: after) (hcopies : (empty.run before).Copies original step)
      (horiginal : OfCompositeOrigin steps original) :
      OfCompositeOrigin steps (empty.run before).pool.nextId

/-- A single operation that takes effect in a slot: it fills the slot or empties it. -/
def TakesEffect (m : MapId) (key : String) (store : Store) (step : Operation) : Prop :=
  (∃ new, store.Fills m key step new) ∨ step.Drops m key

variable {store : Store} {m : MapId} {key : String} {id : HolderId} {step : Operation}

/-! ### The making of holders -/

theorem pool_apply_of_makes {new : Holder} (h : store.Makes step new) :
    (store.apply step).pool = store.pool.add new := by
  cases h with
  | newHolder v kind => rfl
  | cloneHolder id => rfl
  | write hfills => exact store.pool_apply_of_fills hfills

/-- A single operation that makes no holder leaves the number of holders as it is. -/
theorem size_apply_of_not_makes (hsingle : step.IsSingle) (hnot : ∀ new, ¬ store.Makes step new) :
    (store.apply step).pool.size = store.pool.size := by
  cases step with
  | build plan => rw [apply_build_of_values_eq_nil store hsingle]; rfl
  | newHolder v kind => exact absurd (.newHolder v kind) (hnot _)
  | cloneHolder id => exact absurd (.cloneHolder id) (hnot _)
  | lock id => exact Pool.size_modify _ _ _
  | markPersistable id => exact Pool.size_modify _ _ _
  | write m w =>
    rcases store.pool_apply_write hsingle with hpool | ⟨key, new, hfills⟩
    · exact congrArg Pool.size hpool
    · exact absurd (.write hfills) (hnot new)
  | _ => rfl

theorem MakesComposite.exists_makes (h : store.MakesComposite step) :
    ∃ new, store.Makes step new := by
  cases h with
  | set v hm hname hopen => exact ⟨_, .write (.set v hm hname hopen)⟩
  | newHolder v => exact ⟨_, .newHolder v .composite⟩

theorem Copies.exists_makes {original : HolderId} (h : store.Copies original step) :
    ∃ new, store.Makes step new := by
  cases h with
  | cloneHolder hid => exact ⟨_, .cloneHolder original⟩
  | importHolder key hm hid => exact ⟨_, .write (.importHolder original hm)⟩

theorem Copies.hasHolder {original : HolderId} (h : store.Copies original step) :
    store.HasHolder original := by
  cases h with
  | cloneHolder hid => exact hid
  | importHolder key hm hid => exact hid

/-! ### The kinds of holders -/

theorem not_hasHolder_nextId (store : Store) : ¬ store.HasHolder store.pool.nextId :=
  Nat.lt_irrefl _

theorem holder_of_not_hasHolder (h : ¬ store.HasHolder id) : store.holder id = default := by
  simp only [HasHolder, Pool.size, Nat.not_lt] at h
  simp [holder, Pool.holder, Array.getD_eq_getD_getElem?, h]

theorem hasHolder_of_isComposite (h : (store.holder id).isComposite = true) :
    store.HasHolder id := by
  by_contra hid
  rw [holder_of_not_hasHolder hid] at h
  exact absurd h (by decide)

/-- A holder that is made is composite if it is made so, or if it is a copy of a composite one. -/
theorem isComposite_iff_of_makes {new : Holder} (h : store.Makes step new) :
    new.isComposite = true ↔
      store.MakesComposite step ∨
        ∃ original, store.Copies original step ∧ (store.holder original).isComposite = true := by
  cases h with
  | newHolder v kind =>
    constructor
    · intro h
      obtain rfl : kind = .composite := of_decide_eq_true h
      exact .inl (.newHolder v)
    · rintro (hmakes | ⟨original, hcopies, -⟩)
      · cases hmakes
        rfl
      · cases hcopies
  | cloneHolder id =>
    constructor
    · intro h
      exact .inr ⟨id, .cloneHolder (hasHolder_of_isComposite h), h⟩
    · rintro (hmakes | ⟨original, hcopies, h⟩)
      · cases hmakes
      · cases hcopies
        exact h
  | write hfills =>
    cases hfills with
    | set v hm hname hopen => exact iff_of_true rfl (.inl (.set v hm hname hopen))
    | importHolder id hm =>
      constructor
      · intro h
        exact .inr ⟨id, .importHolder _ hm (hasHolder_of_isComposite h), h⟩
      · rintro (hmakes | ⟨original, hcopies, h⟩)
        · cases hmakes
        · cases hcopies
          exact h

/-- The composite holders after a single operation are those before it and the new one, if it is
made composite or as a copy of a composite one. -/
theorem isComposite_apply_iff (hsingle : step.IsSingle) (id : HolderId) :
    ((store.apply step).holder id).isComposite = true ↔
      (store.holder id).isComposite = true ∨ (id = store.pool.nextId ∧
        (store.MakesComposite step ∨
          ∃ original, store.Copies original step ∧
            (store.holder original).isComposite = true)) := by
  by_cases hid : store.HasHolder id
  · have hne : id ≠ store.pool.nextId := by
      rintro rfl
      exact store.not_hasHolder_nextId hid
    simp [store.holder_apply hsingle hid, Holder.isComposite, hne]
  · have hbefore : (store.holder id).isComposite = false :=
      Bool.eq_false_iff.2 (mt hasHolder_of_isComposite hid)
    simp only [hbefore, Bool.false_eq_true, false_or]
    by_cases hmakes : ∃ new, store.Makes step new
    · obtain ⟨new, hnew⟩ := hmakes
      have hpool := pool_apply_of_makes hnew
      by_cases hnext : id = store.pool.nextId
      · rw [hnext, holder, hpool, Pool.holder_add_nextId, isComposite_iff_of_makes hnew]
        simp
      · refine iff_of_false (fun h => hnext ?_) fun h => hnext h.1
        -- A holder that exists only now is the new one.
        have hafter := hasHolder_of_isComposite h
        simp only [HasHolder, hpool, Pool.size_add] at hid hafter
        exact congrArg HolderId.mk (by omega : id.index = store.pool.size)
    · refine iff_of_false (fun h => hid ?_) fun h => hmakes ?_
      · have hsize := size_apply_of_not_makes hsingle (not_exists.1 hmakes)
        have hafter := hasHolder_of_isComposite h
        rwa [HasHolder, hsize] at hafter
      · rcases h.2 with hmade | ⟨original, hcopies, -⟩
        · exact hmade.exists_makes
        · exact hcopies.exists_makes

/-! ### Chains of copies -/

section

variable {steps : List Operation}

theorem OfCompositeOrigin.append (h : OfCompositeOrigin steps id) (more : List Operation) :
    OfCompositeOrigin (steps ++ more) id := by
  induction h with
  | made hsteps hmakes => exact .made (by rw [hsteps, List.append_assoc]; rfl) hmakes
  | copied hsteps hcopies horiginal ih =>
    exact .copied (by rw [hsteps, List.append_assoc]; rfl) hcopies ih

/-- A chain of copies either does without the last step, or this step makes the holder at its near
end. -/
theorem ofCompositeOrigin_append_singleton (id : HolderId) :
    OfCompositeOrigin (steps ++ [step]) id ↔
      OfCompositeOrigin steps id ∨ (id = (empty.run steps).pool.nextId ∧
        ((empty.run steps).MakesComposite step ∨
          ∃ original, (empty.run steps).Copies original step ∧
            OfCompositeOrigin steps original)) := by
  constructor
  · intro h
    induction h with
    | made hsteps hmakes =>
      rcases append_singleton_eq_append_cons hsteps with ⟨rfl, -, rfl⟩ | ⟨init, -, rfl⟩
      · exact .inr ⟨rfl, .inl hmakes⟩
      · exact .inl (.made rfl hmakes)
    | @copied before after other original hsteps hcopies horiginal ih =>
      -- The original exists before the copy, so the last step has not made it.
      have hold (hid : (empty.run steps).HasHolder original) :
          OfCompositeOrigin steps original := by
        rcases ih with hold | ⟨rfl, -⟩
        · exact hold
        · exact absurd hid (not_hasHolder_nextId _)
      rcases append_singleton_eq_append_cons hsteps with ⟨rfl, -, rfl⟩ | ⟨init, -, rfl⟩
      · exact .inr ⟨rfl, .inr ⟨original, hcopies, hold hcopies.hasHolder⟩⟩
      · refine .inl (.copied rfl hcopies (hold ?_))
        rw [run_append]
        exact (keepsHolder hcopies.hasHolder (other :: init)).hasHolder
  · rintro (h | ⟨rfl, hmakes | ⟨original, hcopies, horiginal⟩⟩)
    · exact h.append [step]
    · exact .made rfl hmakes
    · exact .copied rfl hcopies (horiginal.append [step])

/-- The composite holders that single operations have made are those whose chain of copies leads
back to a holder that was made composite. -/
theorem isComposite_run_iff (hsingle : ∀ step ∈ steps, step.IsSingle) (id : HolderId) :
    ((empty.run steps).holder id).isComposite = true ↔ OfCompositeOrigin steps id := by
  induction steps using List.reverseRecOn generalizing id with
  | nil =>
    refine iff_of_false (fun h => ?_) fun h => ?_
    · exact Nat.not_lt_zero _ (hasHolder_of_isComposite h)
    · cases h with
      | made hsteps hmakes => simp at hsteps
      | copied hsteps hcopies horiginal => simp at hsteps
  | append_singleton steps step ih =>
    have hsteps := ih fun s hs => hsingle s (List.mem_append_left _ hs)
    have hrun : empty.run (steps ++ [step]) = (empty.run steps).apply step := by
      rw [run_append]
      rfl
    rw [hrun, isComposite_apply_iff (hsingle step (by simp)), ofCompositeOrigin_append_singleton]
    simp only [hsteps]

end

/-! ### The last write to a slot -/

section

variable {before after : List Operation} {write : Operation}

/-- What the last step that takes effect in a slot has left there stays. -/
theorem IsLast.holder?_run (h : IsLast (TakesEffect m key) store before write after)
    (hsingle : ∀ step ∈ after, step.IsSingle) :
    (store.run (before ++ write :: after)).holder? m key =
      ((store.run before).apply write).holder? m key := by
  induction after using List.reverseRecOn with
  | nil =>
    rw [run_append]
    rfl
  | append_singleton after step ih =>
    obtain ⟨hinit, hnot⟩ := store.isLast_append_singleton.1 h
    obtain ⟨hfills, hdrops⟩ := not_or.1 hnot
    rw [run_append_cons_append_singleton, holder?_apply_of_kept _ (hsingle step (by simp))
      (not_exists.1 hfills) hdrops]
    exact ih hinit fun s hs => hsingle s (List.mem_append_left _ hs)

/-- A slot that single operations have filled has a last write. -/
theorem exists_isLast_takesEffect {steps : List Operation} (habsent : store.holder? m key = none)
    (hsingle : ∀ step ∈ steps, step.IsSingle)
    (hslot : (store.run steps).holder? m key = some id) :
    ∃ before write after, steps = before ++ write :: after ∧
      IsLast (TakesEffect m key) store before write after := by
  refine exists_isLast store (Q := fun current => ∃ old, current.holder? m key = some old)
    (fun current step hstep hnot hafter => ?_) (by simp [habsent]) hsingle ⟨id, hslot⟩
  obtain ⟨hfills, hdrops⟩ := not_or.1 hnot
  rwa [current.holder?_apply_of_kept hstep (not_exists.1 hfills) hdrops] at hafter

/-- A last write that fills its slot leaves there the holder that it made, which keeps the value and
the kind that it was made with. -/
theorem IsLast.holder_of_fills (hlast : IsLast (TakesEffect m key) store before write after)
    (hsingle : ∀ step ∈ after, step.IsSingle) {new : Holder}
    (hfills : (store.run before).Fills m key write new) :
    (store.run (before ++ write :: after)).holder? m key = some (store.run before).pool.nextId ∧
      ((store.run (before ++ write :: after)).holder (store.run before).pool.nextId).value =
        new.value ∧
      ((store.run (before ++ write :: after)).holder (store.run before).pool.nextId).kind =
        new.kind := by
  have hmade : ((store.run before).apply write).HasHolder (store.run before).pool.nextId := by
    rw [HasHolder, pool_apply_of_fills _ hfills, Pool.size_add]
    exact Nat.lt_succ_self _
  have hkept := keepsHolder hmade after
  have hnew := holder_apply_of_fills _ hfills
  refine ⟨?_, ?_, ?_⟩
  · rw [hlast.holder?_run hsingle, holder?_apply_of_fills _ hfills]
  · rw [run_append]
    exact hkept.value.trans (congrArg Holder.value hnew)
  · rw [run_append]
    exact hkept.kind.trans (congrArg Holder.kind hnew)

/-- If there is a holder in a slot, then the last write there has filled it. -/
theorem IsLast.exists_fills (hlast : IsLast (TakesEffect m key) store before write after)
    (hsingle : ∀ step ∈ after, step.IsSingle)
    (hslot : (store.run (before ++ write :: after)).holder? m key = some id) :
    ∃ new, (store.run before).Fills m key write new := by
  rcases hlast.holds with hfills | hdrops
  · exact hfills
  · rw [hlast.holder?_run hsingle, holder?_apply_of_drops _ hdrops] at hslot
    exact absurd hslot (by simp)

/-- The holder in a slot is composite if the last write there was a plain one, or the import of a
holder that was composite. -/
theorem isComposite_iff_of_isLast (hlast : IsLast (TakesEffect m key) store before write after)
    (hsingle : ∀ step ∈ after, step.IsSingle)
    (hslot : (store.run (before ++ write :: after)).holder? m key = some id) :
    ((store.run (before ++ write :: after)).holder id).isComposite = true ↔
      (∃ v, write = .write m (.set key v)) ∨
        ∃ original, write = .write m (.importAll [(key, .holder original)]) ∧
          ((store.run before).holder original).isComposite = true := by
  obtain ⟨new, hfills⟩ := hlast.exists_fills hsingle hslot
  obtain ⟨hnew, -, hkind⟩ := hlast.holder_of_fills hsingle hfills
  obtain rfl := Option.some.inj (hnew.symm.trans hslot)
  rw [Holder.isComposite, hkind]
  cases hfills with
  | set v hm hname hopen => simp [Holder.superseding, Holder.fresh]
  | importHolder original hm => simp [Holder.isComposite]

end

/-! ### The composite entries of a map -/

theorem get?_composites (store : Store) (m : MapId) (key : String) :
    (store.composites m).get? key =
      (store.holder? m key).filter fun id => (store.holder id).isComposite :=
  Dict.get?_filter ..

theorem SameHolders.composites_eq {other : Store} (h : store.SameHolders other) :
    store.composites m = other.composites m := by
  simp only [composites, holder, h.1, h.2 m]

/-- What a write to a slot does to its place among the composite ones. -/
structure Reclassifies (store : Store) (m : MapId) (key : String) : Prop where
  /-- A plain write that meets a lock gives the locked holder and leaves all composite entries as
  they are. -/
  refused : ∀ v, IsValidName key → ¬ store.IsOpen m key →
    ∃ old, store.holder? m key = some old ∧ (store.set m key v).1 = .ok old ∧
      (store.set m key v).2.composites m = store.composites m
  /-- A plain write that is accepted makes the entry composite, whatever stood there. -/
  set : ∀ v, IsValidName key → store.IsOpen m key →
    ∃ new, (store.set m key v).1 = .ok new ∧
      ((store.set m key v).2.composites m).get? key = some new
  /-- After the import of a holder the entry is composite if this holder is, whatever stood
  there. -/
  importHolder : ∀ source, ((store.importAll m [(key, .holder source)]).2.composites m).get? key =
    if (store.holder source).isComposite then some store.pool.nextId else none

theorem reclassifies (hm : store.HasMap m) (key : String) : store.Reclassifies m key where
  refused v hname hlocked := by
    simp only [IsOpen, not_forall, Bool.not_eq_false] at hlocked
    obtain ⟨old, hold, hlocked⟩ := hlocked
    obtain ⟨hok, hsame⟩ := Frozen.set ⟨hold, hlocked, rfl, rfl⟩ hname v
    exact ⟨old, hold, hok, hsame.composites_eq⟩
  set v hname hopen := by
    have hset : store.set m key v = (.ok ((store.session m).write key v).1,
        store.commit m ((store.session m).write key v).2) := by
      rw [Store.set, Session.set, if_pos hname]
    obtain ⟨hslot, -, hholder, -⟩ := set_of_isOpen hm hopen hset
    refine ⟨((store.session m).write key v).1, by rw [hset], ?_⟩
    rw [hset, get?_composites, hslot, Option.filter_some, hholder]
    rfl
  importHolder source := by
    have hfills : store.Fills m key (.write m (.importAll [(key, .holder source)])) _ :=
      .importHolder source hm
    rw [importAll_eq_apply, get?_composites, store.holder?_apply_of_fills hfills,
      Option.filter_some, store.holder_apply_of_fills hfills]

/-- At the end of a run from the empty store, every filled slot has a last write that took effect.
The entry is among the composite ones of its map, with the very holder in the slot, if this was a
plain write or the import of a composite holder, and otherwise it is not.  At every moment of the
run the composite holders are those whose chain of copies leads back to a plain write to some map or
to a caller who asked for such a holder. -/
theorem composites_of_run {operations : List Operation} {m : MapId} {key : String} {id : HolderId}
    (hslot : (empty.run operations).holder? m key = some id) :
    (∃ before write after, empty.unbundled operations = before ++ write :: after ∧
        IsLast (TakesEffect m key) empty before write after) ∧
      (∀ before write after, empty.unbundled operations = before ++ write :: after →
        IsLast (TakesEffect m key) empty before write after →
          ∀ id', ((empty.run operations).composites m).get? key = some id' ↔
            id' = id ∧ ((∃ v, write = .write m (.set key v)) ∨
              ∃ original, write = .write m (.importAll [(key, .holder original)]) ∧
                ((empty.run before).holder original).isComposite = true)) ∧
      (∀ first rest, empty.unbundled operations = first ++ rest →
        ∀ id', ((empty.run first).holder id').isComposite = true ↔ OfCompositeOrigin first id') ∧
      (empty.run operations).Reclassifies m key := by
  have hsingle (step : Operation) (h : step ∈ empty.unbundled operations) : step.IsSingle :=
    empty.isSingle_of_mem_unbundled h
  have hm := hasMap_of_holder? _ hslot
  refine ⟨?_, fun before write after hsplit hlast id' => ?_, fun first rest hsplit id' => ?_,
    reclassifies hm key⟩
  · rw [← run_unbundled] at hslot
    exact exists_isLast_takesEffect (holder?_empty m key) hsingle hslot
  · have hafter (step : Operation) (h : step ∈ after) : step.IsSingle :=
      hsingle step (by simp [hsplit, h])
    rw [get?_composites, hslot, Option.filter_eq_some_iff, Option.some.injEq, eq_comm]
    refine and_congr_right fun heq => ?_
    subst heq
    rw [← run_unbundled, hsplit] at hslot ⊢
    exact isComposite_iff_of_isLast hlast hafter hslot
  · exact isComposite_run_iff (fun step h => hsingle step (by simp [hsplit, h])) id'

/-- A copy of a composite holder is imported and locked, and a plain write meets the lock. -/
theorem composites_of_run_of_locked_copy :
    ((empty.run [.build {}, .newHolder .null .composite, .cloneHolder ⟨0⟩,
        .write ⟨0⟩ (.importAll [("a", .holder ⟨1⟩)]), .lock ⟨2⟩,
        .write ⟨0⟩ (.set "a" (.bool true))]).composites ⟨0⟩).get? "a" = some ⟨2⟩ := by
  have hslot : (empty.run [.build {}, .newHolder .null .composite, .cloneHolder ⟨0⟩,
      .write ⟨0⟩ (.importAll [("a", .holder ⟨1⟩)]), .lock ⟨2⟩,
      .write ⟨0⟩ (.set "a" (.bool true))]).holder? ⟨0⟩ "a" = some ⟨2⟩ := by decide +kernel
  obtain ⟨-, hkind, horigin, -⟩ := composites_of_run hslot
  have hlast : IsLast (TakesEffect ⟨0⟩ "a") empty
      [.build {}, .newHolder .null .composite, .cloneHolder ⟨0⟩]
      (.write ⟨0⟩ (.importAll [("a", .holder ⟨1⟩)]))
      (([] ++ [.lock ⟨2⟩]) ++ [.write ⟨0⟩ (.set "a" (.bool true))]) := by
    refine empty.isLast_append_singleton.2 ⟨empty.isLast_append_singleton.2
      ⟨⟨.inl ⟨_, .importHolder ⟨1⟩ (by decide)⟩, by simp⟩, ?_⟩, ?_⟩
    · rintro (⟨new, hfills⟩ | hdrops)
      · cases hfills
      · cases hdrops
    · rintro (⟨new, hfills⟩ | hdrops)
      · obtain ⟨v, -, -, hopen⟩ := hfills
        exact absurd (hopen ⟨2⟩ (by decide +kernel)) (by decide +kernel)
      · cases hdrops
  have horiginal : OfCompositeOrigin
      ([.build {}] ++ .newHolder .null .composite :: [.cloneHolder ⟨0⟩]) ⟨0⟩ :=
    .made rfl (.newHolder .null)
  have hchain : OfCompositeOrigin
      ([.build {}, .newHolder .null .composite] ++ .cloneHolder ⟨0⟩ :: []) ⟨1⟩ :=
    .copied rfl (.cloneHolder (by decide)) horiginal
  have hcomposite := (horigin _ _ (by rfl) ⟨1⟩).2 hchain
  exact (hkind _ _ _ (by rfl) hlast ⟨2⟩).2 ⟨rfl, .inr ⟨⟨1⟩, rfl, hcomposite⟩⟩

end Store

end AttributeStore
