import AttributeStore.Proofs.Permanence
import AttributeStore.Proofs.WriteOrder

/-!
# Merging maps

To merge one map into another is to take all of its holders and to import them.  This always
succeeds and stores copies, whatever the keys are and whatever stands under them.  A map that is
merged into itself shows the same as before, but all of its holders are other ones, so that those
that were taken before have no effect on it any more.

## Main definitions

* `holderEntries`, `Store.merge`: the import of holders that were taken from a map.
* `Store.Merges`: what such an import does.
* `Store.MergesMap`: what merging a map into a map does, at once and in what follows.

## Main results

* `Store.merges`: importing holders under different keys.
* `Store.mergesMap`: merging a map into a map, possibly into itself.
-/

namespace AttributeStore

/-- The entries of an import of holders, under the keys under which they were taken. -/
def holderEntries (taken : List (String × HolderId)) : List (String × Entry) :=
  taken.map fun e => (e.1, .holder e.2)

namespace Store

/-- The store after holders that were taken from some map are imported into a map. -/
def merge (store : Store) (m : MapId) (taken : List (String × HolderId)) : Store :=
  store.apply (.write m (.importAll (holderEntries taken)))

variable {store : Store} {m m' : MapId} {key : String} {id : HolderId}
  {taken : List (String × HolderId)}

/-! ### Importing holders -/

theorem not_isRefused_of_mem_holderEntries {e : String × Entry} (h : e ∈ holderEntries taken) :
    ¬ e.2.IsRefused e.1 := by
  obtain ⟨e', -, rfl⟩ := List.mem_map.1 h
  rintro ⟨v, heq, -⟩
  cases heq

/-- No holder is refused. -/
theorem importAll_holderEntries (hm : store.HasMap m) (taken : List (String × HolderId)) :
    store.importAll m (holderEntries taken) = (.ok (), store.merge m taken) :=
  Prod.ext ((store.importAll_fst_eq_ok_iff hm _).2 fun _ => not_isRefused_of_mem_holderEntries)
    (store.importAll_eq_apply m _)

theorem merge_append (hm : store.HasMap m) (first second : List (String × HolderId)) :
    store.merge m (first ++ second) = (store.merge m first).merge m second := by
  have hentries : holderEntries (first ++ second) = holderEntries first ++ holderEntries second :=
    List.map_append
  rw [merge, ← importAll_eq_apply, hentries, store.importAll_append hm, importAll_holderEntries hm]
  exact (store.merge m first).importAll_eq_apply m _

theorem hasMap_merge (hm : store.HasMap m') (m : MapId) (taken : List (String × HolderId)) :
    (store.merge m taken).HasMap m' :=
  store.hasMap_apply hm (.write m (.importAll (holderEntries taken)))

theorem Unaliased.merge (hstore : store.Unaliased) (m : MapId) (taken : List (String × HolderId)) :
    (store.merge m taken).Unaliased :=
  hstore.run [.write m (.importAll (holderEntries taken))]

/-- The holders that exist keep their states. -/
theorem holder_merge (hid : store.HasHolder id) (m : MapId) (taken : List (String × HolderId)) :
    (store.merge m taken).HasHolder id ∧ (store.merge m taken).holder id = store.holder id :=
  holder_apply_eq hid (.write m (.importAll (holderEntries taken)))

/-- The other slots keep their holders. -/
theorem holder?_merge (hstore : store.Unaliased) (hm : store.HasMap m')
    (hkey : m = m' → key ∉ taken.map Prod.fst) :
    (store.merge m taken).holder? m' key = store.holder? m' key := by
  have hnot : ¬ (Operation.write m (.importAll (holderEntries taken))).Concerns store m' key := by
    rintro ⟨heq, entry, hmem, -⟩
    obtain ⟨e, he, hentry⟩ := List.mem_map.1 hmem
    exact hkey heq (List.mem_map.2 ⟨e, he, (Prod.mk.inj hentry).1⟩)
  exact (apply_of_not_concerns hstore hm hnot).1

/-- What the import of holders into a map does. -/
structure Merges (store : Store) (m : MapId) (taken : List (String × HolderId))
    (merged : Store) : Prop where
  /-- Under each of the keys there is a holder that did not exist before, in the state of the one
  that was imported. -/
  copied : ∀ key id, (key, id) ∈ taken → ∃ copy, merged.holder? m key = some copy ∧
    ¬ store.HasHolder copy ∧ merged.HasHolder copy ∧ merged.holder copy = store.holder id
  /-- Under every other key there is the very holder that was there before. -/
  kept : ∀ key, key ∉ taken.map Prod.fst → merged.holder? m key = store.holder? m key
  /-- The other maps have the holders that they had. -/
  others : ∀ m', m' ≠ m → merged.table m' = store.table m'
  /-- No holder that existed before has changed. -/
  holders : ∀ id, store.HasHolder id → merged.HasHolder id ∧ merged.holder id = store.holder id

/-- A holder of the import is copied when its turn comes, and the copy stays. -/
theorem exists_copy_of_mem (hstore : store.Unaliased) (hm : store.HasMap m)
    (hkeys : (taken.map Prod.fst).Nodup) (hid : store.HasHolder id) (hmem : (key, id) ∈ taken) :
    ∃ copy, (store.merge m taken).holder? m key = some copy ∧ ¬ store.HasHolder copy ∧
      (store.merge m taken).HasHolder copy ∧
      (store.merge m taken).holder copy = store.holder id := by
  obtain ⟨before, after, rfl⟩ := List.append_of_mem hmem
  have hafter : key ∉ after.map Prod.fst := by
    rw [List.map_append, List.map_cons] at hkeys
    exact (List.nodup_cons.1 (List.nodup_append.1 hkeys).2.1).1
  let reached := store.merge m before
  let stored := reached.merge m [(key, id)]
  have hreached : reached.HasMap m := hasMap_merge hm m before
  have hfills : reached.Fills m key (.write m (.importAll [(key, .holder id)]))
      (reached.holder id) := .importHolder id hreached
  have hmerged : store.merge m (before ++ (key, id) :: after) = stored.merge m after := by
    rw [List.append_cons, merge_append hm, merge_append hm]
  have hnew : stored.HasHolder reached.pool.nextId :=
    (Nat.lt_succ_self _).trans_eq
      ((congrArg Pool.size (reached.pool_apply_of_fills hfills)).trans (Pool.size_add _ _)).symm
  obtain ⟨hthere, hstate⟩ := holder_merge hnew m after
  rw [hmerged]
  refine ⟨reached.pool.nextId, ?_, ?_, hthere, ?_⟩
  · have hstored : stored.Unaliased := (hstore.merge m before).merge m _
    rw [holder?_merge hstored (hasMap_merge hreached m _) fun _ => hafter]
    exact reached.holder?_apply_of_fills hfills
  · exact Nat.not_lt.2 (store.size_le_size_run [.write m (.importAll (holderEntries before))])
  · rw [hstate, ← (holder_merge hid m before).2]
    exact reached.holder_apply_of_fills hfills

/-- Holders are imported under different keys. -/
theorem merges (hstore : store.Unaliased) (hm : store.HasMap m)
    (hkeys : (taken.map Prod.fst).Nodup) (hissued : ∀ e ∈ taken, store.HasHolder e.2) :
    store.Merges m taken (store.merge m taken) where
  copied _ _ hmem := exists_copy_of_mem hstore hm hkeys (hissued _ hmem) hmem
  kept _ hkey := holder?_merge hstore hm fun _ => hkey
  others _ hne := store.table_commit_of_ne m _ hne
  holders _ hid := holder_merge hid m taken

/-- An import of holders in the states that a map shows under their keys changes nothing of this. -/
theorem contents_merge (hstore : store.Unaliased) (hm : store.HasMap m)
    (hkeys : (taken.map Prod.fst).Nodup) (hissued : ∀ e ∈ taken, store.HasHolder e.2)
    (hshown : ∀ key id, (key, id) ∈ taken →
      (store.contents m).get? key = some (store.holder id)) :
    (store.merge m taken).contents m = store.contents m := by
  have hmerges := merges hstore hm hkeys hissued
  refine Dict.ext_get? fun key => ?_
  rw [get?_contents]
  by_cases hkey : key ∈ taken.map Prod.fst
  · obtain ⟨⟨key, id⟩, hmem, rfl⟩ := List.mem_map.1 hkey
    obtain ⟨copy, hcopy, -, -, hstate⟩ := hmerges.copied key id hmem
    rw [hcopy, Option.map_some, hstate, hshown key id hmem]
  · rw [hmerges.kept key hkey, get?_contents]
    exact Option.map_congr fun id hid => (hmerges.holders id (hstore.issued hid)).2

/-! ### Merging maps -/

/-- What is done by taking all holders of a map and importing them into a map, possibly the same
one.  The holders are taken in any order; `Store.importFrom` takes them in that of their keys. -/
structure MergesMap (store : Store) (source target : MapId)
    (taken : List (String × HolderId)) : Prop where
  /-- The import succeeds whenever it is done, and copies the holders in the states that they have
  by then. -/
  imported : ∀ between,
    (store.run between).importAll target (holderEntries taken) =
        (.ok (), (store.run between).merge target taken) ∧
      (store.run between).Merges target taken ((store.run between).merge target taken)
  /-- Another map that is merged keeps its holders, and these do not change. -/
  unchanged : source ≠ target → (store.merge target taken).table source = store.table source ∧
    ∀ key id, store.holder? source key = some id →
      (store.merge target taken).holder id = store.holder id
  /-- If the holders are imported once more, as they were taken or taken anew, then the import
  succeeds again, and the map shows what it has shown before. -/
  again : ∀ retaken, retaken.Perm (store.table source).entries ∨
      retaken.Perm ((store.merge target taken).table source).entries →
    (store.merge target taken).importAll target (holderEntries retaken) =
        (.ok (), (store.merge target taken).merge target retaken) ∧
      ((store.merge target taken).merge target retaken).contents target =
        (store.merge target taken).contents target
  /-- A map that is merged into itself shows what it has shown before. -/
  itself : source = target → (store.merge target taken).contents target = store.contents target
  /-- No holder that existed before is in it, then or later, so that no flag that is raised on such
  a holder has an effect on what it shows. -/
  detached : source = target → ∀ id, store.HasHolder id → ∀ later,
    (∀ key, ((store.merge target taken).run later).holder? target key ≠ some id) ∧
      (((store.merge target taken).run later).lock id).contents target =
        ((store.merge target taken).run later).contents target ∧
      (((store.merge target taken).run later).markPersistable id).contents target =
        ((store.merge target taken).run later).contents target

section

variable {source target : MapId}

/-- The holders of a map stand under different keys. -/
theorem nodup_keys_of_perm (htaken : taken.Perm (store.table source).entries) :
    (taken.map Prod.fst).Nodup :=
  (htaken.map Prod.fst).nodup_iff.2 (store.table source).nodup_keys

theorem mem_of_perm_iff (htaken : taken.Perm (store.table source).entries) :
    (key, id) ∈ taken ↔ store.holder? source key = some id :=
  htaken.mem_iff.trans ((store.table source).get?_eq_some_iff key id).symm

theorem hasHolder_of_perm (hstore : store.Unaliased)
    (htaken : taken.Perm (store.table source).entries) {e : String × HolderId} (he : e ∈ taken) :
    store.HasHolder e.2 :=
  hstore.issued ((mem_of_perm_iff htaken).1 he)

/-- The holders of a map can be imported at any later time. -/
theorem merges_of_perm (hstore : store.Unaliased) (hm : store.HasMap target)
    (htaken : taken.Perm (store.table source).entries) (between : List Operation) :
    (store.run between).Merges target taken ((store.run between).merge target taken) :=
  merges (hstore.run between) (store.hasMap_run hm between) (nodup_keys_of_perm htaken)
    fun _ he => (keepsHolder (hasHolder_of_perm hstore htaken he) between).hasHolder

/-- The holders of a map are imported once more. -/
theorem contents_merge_again (hstore : store.Unaliased) (hm : store.HasMap target)
    {retaken : List (String × HolderId)} (htaken : taken.Perm (store.table source).entries)
    (hretaken : retaken.Perm (store.table source).entries) :
    ((store.merge target taken).merge target retaken).contents target =
      (store.merge target taken).contents target := by
  have hmerges := merges_of_perm hstore hm htaken []
  refine contents_merge (hstore.merge target taken) (hasMap_merge hm target taken)
    (nodup_keys_of_perm hretaken)
    (fun e he => (holder_merge (hasHolder_of_perm hstore hretaken he) target taken).1)
    fun key id hmem => ?_
  -- The copy has the state that the holder still has.
  obtain ⟨copy, hcopy, -, -, hstate⟩ :=
    hmerges.copied key id ((htaken.trans hretaken.symm).mem_iff.2 hmem)
  have hkept := (hmerges.holders id (hasHolder_of_perm hstore hretaken hmem)).2
  rw [get?_contents]
  exact (congrArg (Option.map _) hcopy).trans (congrArg some (hstate.trans hkept.symm))

/-- The holders of a map are imported into this map. -/
theorem contents_merge_itself (hstore : store.Unaliased) (hm : store.HasMap target)
    (htaken : taken.Perm (store.table target).entries) :
    (store.merge target taken).contents target = store.contents target := by
  refine contents_merge hstore hm (nodup_keys_of_perm htaken)
    (fun e he => hasHolder_of_perm hstore htaken he) fun key id hmem => ?_
  rw [get?_contents, (mem_of_perm_iff htaken).1 hmem, Option.map_some]

/-- No holder from before stands in a map that was merged into itself. -/
theorem holder?_run_merge_ne (hstore : store.Unaliased) (hm : store.HasMap target)
    (htaken : taken.Perm (store.table target).entries) (hid : store.HasHolder id)
    (later : List Operation) (key : String) :
    ((store.merge target taken).run later).holder? target key ≠ some id := by
  intro hlater
  have hmerges := merges_of_perm hstore hm htaken []
  have hthere : (store.merge target taken).holder? target key = some id :=
    holder?_of_holder?_run (holder_merge hid target taken).1 hlater
  by_cases hkey : key ∈ taken.map Prod.fst
  · obtain ⟨⟨key, id'⟩, hmem, rfl⟩ := List.mem_map.1 hkey
    obtain ⟨copy, hcopy, hnew, -⟩ := hmerges.copied key id' hmem
    obtain rfl : copy = id := Option.some.inj (hcopy.symm.trans hthere)
    exact hnew hid
  · have hold : store.holder? target key = some id := (hmerges.kept key hkey).symm.trans hthere
    exact hkey (List.mem_map.2 ⟨_, (mem_of_perm_iff htaken).2 hold, rfl⟩)

/-- A flag that is raised on a holder that does not stand in a map has no effect on what this
shows. -/
theorem contents_of_raised_elsewhere (hstore : store.Unaliased) (hm : store.HasMap m)
    (hid : ∀ key, store.holder? m key ≠ some id) :
    (store.lock id).contents m = store.contents m ∧
      (store.markPersistable id).contents m = store.contents m := by
  have hframe (operation : Operation) (hnot : ∀ key, ¬ operation.Concerns store m key) :
      (store.apply operation).contents m = store.contents m :=
    Dict.ext_get? fun key => (apply_of_not_concerns hstore hm (hnot key)).2
  exact ⟨hframe (.lock id) hid, hframe (.markPersistable id) hid⟩

/-- All holders of a map are taken and imported into a map. -/
theorem mergesMap (hstore : store.Reachable) (hm : store.HasMap target)
    (htaken : taken.Perm (store.table source).entries) : store.MergesMap source target taken where
  imported between := ⟨importAll_holderEntries (store.hasMap_run hm between) taken,
    merges_of_perm hstore.unaliased hm htaken between⟩
  unchanged hne := ⟨(merges_of_perm hstore.unaliased hm htaken []).others source hne,
    fun _ _ hid => (holder_merge (hstore.unaliased.issued hid) target taken).2⟩
  again retaken hretaken := by
    refine ⟨importAll_holderEntries (hasMap_merge hm target taken) retaken, ?_⟩
    rcases hretaken with hretaken | hretaken
    · exact contents_merge_again hstore.unaliased hm htaken hretaken
    · by_cases heq : source = target
      · subst heq
        exact contents_merge_itself (hstore.unaliased.merge source taken)
          (hasMap_merge hm source taken) hretaken
      · have hothers := (merges_of_perm hstore.unaliased hm htaken []).others source heq
        have htable : (store.merge target taken).table source = store.table source := hothers
        rw [htable] at hretaken
        exact contents_merge_again hstore.unaliased hm htaken hretaken
  itself heq := contents_merge_itself hstore.unaliased hm (heq ▸ htaken)
  detached heq id hid later := by
    have habsent := holder?_run_merge_ne hstore.unaliased hm (heq ▸ htaken) hid later
    exact ⟨habsent, contents_of_raised_elsewhere
      ((hstore.unaliased.merge target taken).run later)
      ((store.merge target taken).hasMap_run (hasMap_merge hm target taken) later) habsent⟩

/-- A map with a locked holder and a copy of it under something that is no name is merged into
itself, the locked holder first. -/
theorem mergesMap_of_locked_holder :
    (empty.run [.build {}, .write ⟨0⟩ (.set "a" .null), .lock ⟨0⟩,
        .write ⟨0⟩ (.importAll [("1", .holder ⟨0⟩)])]).HasMap ⟨0⟩ ∧
      (empty.run [.build {}, .write ⟨0⟩ (.set "a" .null), .lock ⟨0⟩,
        .write ⟨0⟩ (.importAll [("1", .holder ⟨0⟩)])]).MergesMap ⟨0⟩ ⟨0⟩
          [("a", ⟨0⟩), ("1", ⟨1⟩)] := by
  have hm : (empty.run [.build {}, .write ⟨0⟩ (.set "a" .null), .lock ⟨0⟩,
      .write ⟨0⟩ (.importAll [("1", .holder ⟨0⟩)])]).HasMap ⟨0⟩ := by decide
  exact ⟨hm, mergesMap ⟨_, rfl⟩ hm (List.Perm.swap _ _ [])⟩

end

end Store

end AttributeStore
