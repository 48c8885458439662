import SystemsOS.FileSystem.Calls

/-! # The directory tree

Names are kept flat, so a file lies in a directory only by its spelling. Creation
checks every parent and deletion refuses a directory whose name starts another,
hence every parent that a stored name spells out is itself stored as a directory.
-/

namespace SystemsOS

open FileTable

variable {fs fs' : FileTable} {op : Op} {i j : EntryId} {p q : CString} {ty : EntryType}

/-- Slot 0 is the root, and each prefix of a name that ends before a later separator is
the name of a directory. -/
structure TreeClosed (fs : FileTable) : Prop where
  slot : fs.Has 0 root .directory
  parent : ∀ i k, 0 < k → (fs.name i)[k]? = some separator →
    fs.Live ((fs.name i).take k) .directory

theorem take_ne_nil {k : ℕ} {c : CChar} (hk : 0 < k) (hc : p[k]? = some c) : p.take k ≠ [] := by
  intro h
  rcases List.take_eq_nil_iff.mp h with h | rfl
  · omega
  · cases hc

namespace FileTable

theorem Live.created (h : fs.Live q ty) (hq : q ≠ []) (hfree : fs.name i = []) (p : CString)
    (ty' : EntryType) : (fs.created i p ty').Live q ty := by
  obtain ⟨j, hj⟩ := h
  have hne : j ≠ i := by
    rintro rfl
    exact hq (hj.1.symm.trans hfree)
  exact ⟨j, (has_congr (created_of_ne fs hne _ _)).mpr hj⟩

end FileTable

theorem length_le_of_not_inUse (h : inUse fs q = false) (hq : q <+: fs.name j) :
    (fs.name j).length ≤ q.length := by
  by_contra hlt
  have hj := List.any_eq_false.mp h j (mem_slots j)
  rw [decide_eq_true_eq] at hj
  exact hj ⟨Nat.lt_of_not_le hlt, hq⟩

theorem TreeClosed.created (ht : TreeClosed fs) (h : WellFormed fs) (hfree : fs.name i = [])
    (hp : Parents fs p) : TreeClosed (fs.created i p ty) := by
  have h0 : i ≠ 0 := h.ne_zero (by rw [hfree]; exact (List.cons_ne_nil _ _).symm)
  apply TreeClosed.mk ((has_congr (created_of_ne fs h0.symm _ _)).mpr ht.slot)
  intro j k hk hsep
  have hne := take_ne_nil hk hsep
  rcases eq_or_ne j i with rfl | hj
  · rw [(created_entry fs j p ty).1] at hsep hne ⊢
    rw [List.getElem?_take] at hsep
    split at hsep
    · next hlt =>
      rw [List.take_take, Nat.min_eq_left (Nat.le_of_lt hlt)] at hne ⊢
      exact (hp k hk hsep).1.created hne hfree p ty
    · cases hsep
  · rw [name, created_of_ne fs hj] at hsep hne ⊢
    exact (ht.parent j k hk hsep).created hne hfree p ty

theorem TreeClosed.cleared (ht : TreeClosed fs) (h : WellFormed fs) (hroot : q ≠ root)
    (hi : fs.Has i q ty) (hdir : ty = .directory → inUse fs q = false) :
    TreeClosed (fs.cleared i) := by
  have h0 : i ≠ 0 := h.ne_zero (hi.1 ▸ hroot)
  apply TreeClosed.mk ((has_congr (cleared_of_ne fs h0.symm)).mpr ht.slot)
  intro j k hk hsep
  rcases eq_or_ne j i with rfl | hj
  · rw [cleared_name] at hsep
    cases hsep
  · rw [name, cleared_of_ne fs hj] at hsep ⊢
    obtain ⟨l, hl⟩ := ht.parent j k hk hsep
    have hli : l ≠ i := by
      -- a directory above a stored name is in use
      rintro rfl
      obtain rfl : q = (fs.name j).take k := hi.1.symm.trans hl.1
      obtain rfl : ty = .directory := Option.some.inj (hi.2.symm.trans hl.2)
      have hle := length_le_of_not_inUse (hdir rfl) (List.take_prefix k _)
      have hlt := (List.getElem?_eq_some_iff.mp hsep).1
      rw [List.length_take] at hle
      change k < (fs.name j).length at hlt
      omega
    exact ⟨l, (has_congr (cleared_of_ne fs hli)).mpr hl⟩

theorem TreeClosed.sameNames (ht : TreeClosed fs) (h : SameNames fs fs') : TreeClosed fs' := by
  apply TreeClosed.mk (h.has.mpr ht.slot)
  intro j k hk hsep
  rw [(h j).1] at hsep ⊢
  obtain ⟨l, hl⟩ := ht.parent j k hk hsep
  exact ⟨l, h.has.mpr hl⟩

theorem treeClosed_sfsInit : TreeClosed sfsInit := by
  apply TreeClosed.mk wellFormed_sfsInit.slot
  intro i k hk hsep
  rcases eq_or_ne i 0 with rfl | hi
  · rw [wellFormed_sfsInit.slot.1, root, List.getElem?_singleton] at hsep
    rw [if_neg (Nat.ne_of_gt hk)] at hsep
    cases hsep
  · rw [name, sfsInit_entries_of_ne hi] at hsep
    cases hsep

theorem Change.treeClosed (h : WellFormed fs) (ht : TreeClosed fs) (hc : Change fs op fs') :
    TreeClosed fs' := by
  cases hc with
  | create hc hfree => exact ht.created h hfree hc.parents
  | delete hroot hi hdir => exact ht.cleared h hroot hi fun he => (hdir he).2
  | write => exact ht.sameNames (written_sameNames fs _ _ _ _)
  | setDirectory => exact ⟨ht.slot, ht.parent⟩
  | _ => exact ht

/-- The tree is closed after any calls. -/
theorem treeClosed_of_reachable (h : Reachable FsStep sfsInit fs) : TreeClosed fs := by
  have hboth := h.invariant (I := fun s => WellFormed s ∧ TreeClosed s)
    (fun _ _ _ hs hstep => ⟨hstep.wellFormed hs.1, (hstep.change hs.1).treeClosed hs.1 hs.2⟩)
    ⟨wellFormed_sfsInit, treeClosed_sfsInit⟩
  exact hboth.2

/-- The tree after a directory and a file in it are made. -/
theorem treeClosed_two : TreeClosed
    (sfsCreate [separator, ⟨97, by decide⟩, separator, ⟨98, by decide⟩] .file
      (sfsCreate [separator, ⟨97, by decide⟩] .directory sfsInit).2).2 :=
  treeClosed_of_reachable
    (((Reachable.refl sfsInit).step (fsStep_create _ _ _)).step (fsStep_create _ _ _))

end SystemsOS
