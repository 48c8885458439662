import SystemsOS.Queue.Calls

/-! # Qnode conservation

A client allocates queues, initialises them, uses them and gives them back. Nodes stay
in circulation as long as it gives back only empty queues: `_queue_dealloc` clears the
header without freeing what is linked to it.
-/

namespace SystemsOS

variable {α : Type} {lost : Finset NodeId}

structure Client (α : Type) where
  module : QueueModule α
  live : Finset QueueId
  fresh : Finset QueueId

def QueueCall.target : QueueCall α → QueueT
  | .alloc _ => none
  | .init q _ => q
  | .insert q _ _ => q
  | .remove q => q
  | .dealloc q => q

namespace Client

/-- A queue is used while it is allocated, and initialised only first. -/
def Allows (s : Client α) : QueueCall α → Prop
  | .alloc _ => True
  | .init q _ => ∃ r ∈ s.fresh, q = some r
  | .insert q _ _ => ∃ r ∈ s.live, q = some r
  | .remove q => ∃ r ∈ s.live, q = some r
  | .dealloc q => ∃ r ∈ s.live, q = some r

def call (s : Client α) (e : QueueCall α) : Except Fault (Client α) :=
  match e with
  | .alloc num => do
    let (qs, m) ← queueAlloc num s.module
    return ⟨m, s.live ∪ qs.toFinset, s.fresh ∪ qs.toFinset⟩
  | .dealloc q => do
    let m ← queueDealloc q s.module
    return ⟨m, s.live \ q.toFinset, s.fresh \ q.toFinset⟩
  | e => do
    let m ← s.module.call e
    return ⟨m, s.live, s.fresh \ e.target.toFinset⟩

def Step (s : Client α) (e : QueueCall α) (s' : Client α) : Prop :=
  s.Allows e ∧ s.call e = .ok s'

/-- Each node is free or linked in one allocated queue or in `_free_queues`, exactly once. -/
def Conserved (s : Client α) : Prop :=
  ∃ (F : List NodeId) (L : QueueId → List NodeId),
    Chain s.module.link s.module.freeQnodes F ∧
    (∀ q, Chain s.module.link (s.module.queues q).first (L q)) ∧
    ∀ n, F.count n + ∑ q ∈ s.live ∪ s.module.freeQueues.toFinset, (L q).count n = 1

/-- The call does not give back a queue that holds items. -/
def Tidy (s : Client α) : QueueCall α → Prop
  | .dealloc (some q) => (s.module.queues q).first = none
  | _ => True

structure Owns (live fresh : Finset QueueId) (v : QueueView α) : Prop where
  freeQueues : v.freeQueues = some 0
  notMem : 0 ∉ live
  subset : fresh ⊆ live
  idle : ∀ q, q ≠ 0 → q ∉ live → v.items q = []
  unused : ∀ q ∈ fresh, v.items q = []
  headers : ∀ x ∈ v.items 0, ∃ q, x.2 = some (.queue q) ∧ q ≠ 0 ∧ q ∉ live
  distinct : ((v.items 0).map Prod.snd).Nodup

variable {live fresh : Finset QueueId} {v : QueueView α} {m m' : QueueModule α} {s s' : Client α}
  {e : QueueCall α}

theorem conserved_iff (h : Spells lost s.module v) (ho : Owns s.live s.fresh v) :
    s.Conserved ↔ lost = ∅ := by
  have hq := h.freeQueues_eq.trans ho.freeQueues
  obtain ⟨F, L, hl, hi, -⟩ := h
  have hL (q : QueueId) (hq : q ∉ s.live ∪ {0}) : L q = [] := by
    rw [Finset.mem_union, Finset.mem_singleton, not_or] at hq
    have hnil := ho.idle q hq.2 hq.1
    rw [hi] at hnil
    exact List.map_eq_nil_iff.mp hnil
  have hsum (n : NodeId) : ∑ q ∈ s.live ∪ {0}, (L q).count n = ∑ q, (L q).count n := by
    refine Finset.sum_subset (Finset.subset_univ _) fun q _ hq => ?_
    rw [hL q hq, List.count_nil]
  unfold Conserved
  rw [hq, Option.toFinset_some]
  constructor
  · rintro ⟨F', L', hF', hL', hcount⟩
    obtain rfl := hF'.unique hl.free
    obtain rfl : L' = L := funext fun q => (hL' q).unique (hl.first q)
    refine Finset.eq_empty_iff_forall_notMem.mpr fun n hn => ?_
    have htotal := hl.count n
    rw [if_pos hn, ← hsum, hcount] at htotal
    exact Nat.one_ne_zero htotal
  · rintro rfl
    refine ⟨F, L, hl.free, hl.first, ?_⟩
    rintro n
    rw [hsum, hl.count, if_neg (Finset.notMem_empty n)]

namespace Owns

theorem zero_notMem_fresh (h : Owns live fresh v) : 0 ∉ fresh := fun h0 => h.notMem (h.subset h0)

theorem use (h : Owns live fresh v) {v' : QueueView α} {q : QueueId} (hq : q ∈ live)
    (hfree : v'.freeQueues = v.freeQueues) (hitems : ∀ r ≠ q, v'.items r = v.items r) :
    Owns live (fresh \ {q}) v' := by
  have hzero : v'.items 0 = v.items 0 := hitems 0 fun h0 => h.notMem (h0 ▸ hq)
  refine ⟨hfree.trans h.freeQueues, h.notMem, Finset.sdiff_subset.trans h.subset, ?_, ?_, ?_, ?_⟩
  · intro r hr hlive
    rw [hitems r fun he => hlive (he ▸ hq)]
    exact h.idle r hr hlive
  · intro r hr
    obtain ⟨hfresh, hne⟩ := Finset.mem_sdiff.mp hr
    rw [hitems r (Finset.notMem_singleton.mp hne)]
    exact h.unused r hfresh
  · rw [hzero]
    exact h.headers
  · rw [hzero]
    exact h.distinct

theorem alloc (h : Owns live fresh v) {x : UInt32 × VoidPtr α} {xs : List (UInt32 × VoidPtr α)}
    {q : QueueId} (hx : v.items 0 = x :: xs) (hq : x.2 = some (.queue q)) :
    Owns (live ∪ {q}) (fresh ∪ {q}) (v.remove 0) := by
  have hitems (r : QueueId) (hr : r ≠ 0) : (v.remove 0).items r = v.items r :=
    Function.update_of_ne hr _ _
  have htail : (v.remove 0).items 0 = xs := by simp [QueueView.remove, hx]
  obtain ⟨q', hq', hne, hnew⟩ := h.headers x (hx ▸ List.mem_cons_self)
  obtain rfl : q = q' := by simpa using hq.symm.trans hq'
  have hdistinct := h.distinct
  rw [hx, List.map_cons, List.nodup_cons] at hdistinct
  refine ⟨h.freeQueues, ?_, Finset.union_subset_union_left h.subset, ?_, ?_, ?_, ?_⟩
  · simp [h.notMem, hne.symm]
  · intro r hr hlive
    rw [hitems r hr]
    exact h.idle r hr fun hm => hlive (Finset.mem_union_left _ hm)
  · intro r hr
    rcases Finset.mem_union.mp hr with hr | hr
    · rw [hitems r fun h0 => h.zero_notMem_fresh (h0 ▸ hr)]
      exact h.unused r hr
    · obtain rfl := Finset.mem_singleton.mp hr
      rw [hitems r hne]
      exact h.idle r hne hnew
  · rw [htail]
    intro y hy
    obtain ⟨r, hr, hr0, hrlive⟩ := h.headers y (hx ▸ List.mem_cons_of_mem _ hy)
    refine ⟨r, hr, hr0, ?_⟩
    rintro hm
    rcases Finset.mem_union.mp hm with hm | hm
    · exact hrlive hm
    · obtain rfl := Finset.mem_singleton.mp hm
      exact hdistinct.1 (List.mem_map.mpr ⟨y, hy, hr.trans hq.symm⟩)
  · rw [htail]
    exact hdistinct.2

theorem dealloc (h : Owns live fresh v) {q : QueueId} (hq : q ∈ live) :
    Owns (live \ {q}) (fresh \ {q}) ((v.clear q none).insert 0 (0, some (.queue q))) := by
  have hne : q ≠ 0 := fun h0 => h.notMem (h0 ▸ hq)
  have hitems (r : QueueId) (hr : r ≠ 0) :
      ((v.clear q none).insert 0 (0, some (.queue q))).items r = (v.clear q none).items r :=
    Function.update_of_ne hr _ _
  have hclear (r : QueueId) (hr : r ≠ q) : (v.clear q none).items r = v.items r :=
    Function.update_of_ne hr _ _
  have hperm : (((v.clear q none).insert 0 (0, some (.queue q))).items 0).Perm
      ((0, some (.queue q)) :: v.items 0) := by
    rw [QueueView.insert_items_self, hclear 0 hne.symm]
    exact perm_insertItem _ _ _
  refine ⟨h.freeQueues, fun h0 => h.notMem (Finset.mem_sdiff.mp h0).1,
    Finset.sdiff_subset_sdiff h.subset (Finset.Subset.refl _), ?_, ?_, ?_, ?_⟩
  · intro r hr hlive
    rw [hitems r hr]
    rcases eq_or_ne r q with rfl | hrq
    · exact Function.update_self _ _ _
    · rw [hclear r hrq]
      exact h.idle r hr fun hm => hlive (Finset.mem_sdiff.mpr ⟨hm, Finset.notMem_singleton.mpr hrq⟩)
  · intro r hr
    obtain ⟨hfresh, hrq⟩ := Finset.mem_sdiff.mp hr
    rw [hitems r fun h0 => h.zero_notMem_fresh (h0 ▸ hfresh),
      hclear r (Finset.notMem_singleton.mp hrq)]
    exact h.unused r hfresh
  · intro y hy
    rcases List.mem_cons.mp (hperm.mem_iff.mp hy) with rfl | hy
    · exact ⟨q, rfl, hne, by simp⟩
    · obtain ⟨r, hr, hr0, hrlive⟩ := h.headers y hy
      exact ⟨r, hr, hr0, fun hm => hrlive (Finset.mem_sdiff.mp hm).1⟩
  · rw [(hperm.map Prod.snd).nodup_iff, List.map_cons, List.nodup_cons]
    refine ⟨fun hm => ?_, h.distinct⟩
    obtain ⟨y, hy, hyq⟩ := List.mem_map.mp hm
    obtain ⟨r, hr, -, hrlive⟩ := h.headers y hy
    obtain rfl : r = q := by simpa using hr.symm.trans hyq
    exact hrlive hq

end Owns

/-- What is known of a client's state: the module has lost the nodes of `lost`. -/
def Holds (lost : Finset NodeId) (s : Client α) : Prop :=
  ∃ v, Spells lost s.module v ∧ Owns s.live s.fresh v

theorem Holds.alloc {num : ℕ} {qs : List QueueId} (h : Spells lost m v)
    (ho : Owns live fresh v) (hm : queueAlloc num m = .ok (qs, m')) :
    Holds lost ⟨m', live ∪ qs.toFinset, fresh ∪ qs.toFinset⟩ := by
  induction num generalizing m v live fresh qs with
  | zero =>
    cases hm
    exact ⟨v, h, by simpa using ho⟩
  | succ num ih =>
    have hmf := h.freeQueues_eq.trans ho.freeQueues
    simp only [queueAlloc, hmf, h.empty 0, ok_bind] at hm
    cases hx : v.items 0 with
    | nil =>
      rw [hx] at hm
      cases hm
      exact ⟨v, h, by simpa using ho⟩
    | cons x xs =>
      obtain ⟨q, hq, -⟩ := ho.headers x (hx ▸ List.mem_cons_self)
      rw [hx] at hm
      obtain ⟨⟨p, m₁⟩, hremove, hm⟩ := bind_eq_ok_iff.mp hm
      obtain ⟨hp, h₁⟩ := h.remove_ok hremove
      obtain rfl : p = some (.queue q) := by rw [hp, hx, ← hq]; rfl
      obtain ⟨q', hcast, hm⟩ := bind_eq_ok_iff.mp hm
      cases hcast
      obtain ⟨⟨qs', m₂⟩, hrest, hm⟩ := bind_eq_ok_iff.mp hm
      cases hm
      have hrun := ih h₁ (ho.alloc hx hq) hrest
      rw [List.toFinset_cons, Finset.insert_eq, ← Finset.union_assoc, ← Finset.union_assoc]
      exact hrun

theorem first_eq_none_iff (h : Spells lost m v) (q : QueueId) :
    (m.queues q).first = none ↔ v.items q = [] := by
  obtain ⟨F, L, hl, hi, -⟩ := h
  have hitems : v.items q = (L q).map m.item := congrFun hi q
  rw [hitems, (hl.first q).start]
  cases L q <;> simp

/-- A call loses nodes only when it gives back a queue that holds items. -/
theorem Holds.call (h : Holds lost s) (ha : s.Allows e) (hm : s.call e = .ok s') :
    ∃ lost', Holds lost' s' ∧ (lost' = ∅ ↔ lost = ∅ ∧ s.Tidy e) := by
  obtain ⟨v, h, ho⟩ := h
  cases e with
  | alloc num =>
    obtain ⟨⟨qs, m⟩, halloc, hm⟩ := bind_eq_ok_iff.mp hm
    cases hm
    exact ⟨lost, Holds.alloc h ho halloc, (and_iff_left trivial).symm⟩
  | init q c =>
    obtain ⟨r, hr, rfl⟩ := ha
    obtain ⟨m, hinit, hm⟩ := bind_eq_ok_iff.mp hm
    cases hm
    obtain ⟨lost', m', hm', h', hlost⟩ := h.init r c
    cases hm'.symm.trans hinit
    rw [ho.unused r hr] at hlost
    refine ⟨lost', ⟨_, h', ?_⟩, ?_⟩
    · rw [QueueCall.target, Option.toFinset_some]
      exact ho.use (ho.subset hr) rfl fun q hq => Function.update_of_ne hq _ _
    · rw [← Finset.card_eq_zero, hlost, ← Finset.card_eq_zero (s := lost)]
      exact (and_iff_left trivial).symm
  | insert q d k =>
    obtain ⟨r, hr, rfl⟩ := ha
    obtain ⟨m, hinsert, hm⟩ := bind_eq_ok_iff.mp hm
    cases hm
    refine ⟨lost, ⟨_, h.insert_ok hinsert, ?_⟩, (and_iff_left trivial).symm⟩
    rw [QueueCall.target, Option.toFinset_some]
    exact ho.use hr rfl fun q hq => Function.update_of_ne hq _ _
  | remove q =>
    obtain ⟨r, hr, rfl⟩ := ha
    obtain ⟨m, hremove, hm⟩ := bind_eq_ok_iff.mp hm
    cases hm
    obtain ⟨⟨d, m'⟩, hremove, hm⟩ := bind_eq_ok_iff.mp hremove
    cases hm
    refine ⟨lost, ⟨_, (h.remove_ok hremove).2, ?_⟩, (and_iff_left trivial).symm⟩
    rw [QueueCall.target, Option.toFinset_some]
    exact ho.use hr rfl fun q hq => Function.update_of_ne hq _ _
  | dealloc q =>
    obtain ⟨r, hr, rfl⟩ := ha
    obtain ⟨m, hdealloc, hm⟩ := bind_eq_ok_iff.mp hm
    cases hm
    obtain ⟨lost', h', hlost⟩ := h.dealloc_ok ho.freeQueues hdealloc
    refine ⟨lost', ⟨_, h', ?_⟩, ?_⟩
    · rw [Option.toFinset_some]
      exact ho.dealloc hr
    · rw [Tidy, first_eq_none_iff h, ← Finset.card_eq_zero, hlost, Nat.add_eq_zero_iff,
        Finset.card_eq_zero, List.length_eq_zero_iff]

def start (m : QueueModule α) : Client α := ⟨m, ∅, ∅⟩

theorem holds_start (hm : queueModinit .zero = .ok m) : Holds ∅ (start m) := by
  obtain ⟨m₁, hm₁, h₁⟩ := queueModinit_spec (α := α) .zero rfl
  cases hm.symm.trans hm₁
  have hitems : (QueueView.headers (List.finRange nQueues).tail : QueueView α).items 0 =
      (List.finRange nQueues).tail.map fun q => (0, some (.queue q)) := by
    simp only [QueueView.headers, if_true]
  refine ⟨_, h₁, rfl, Finset.notMem_empty 0, Finset.Subset.refl _, ?_, ?_, ?_, ?_⟩
  · intro q hq _
    exact if_neg hq
  · intro q hq
    exact absurd hq (Finset.notMem_empty q)
  · intro x hx
    rw [hitems] at hx
    obtain ⟨q, hq, rfl⟩ := List.mem_map.mp hx
    have hne : ∀ r ∈ (List.finRange nQueues).tail, r ≠ 0 := by decide
    exact ⟨q, rfl, hne q hq, Finset.notMem_empty q⟩
  · rw [hitems, List.map_map]
    exact (List.nodup_finRange nQueues).tail.map fun q r hqr => by simpa using hqr

theorem Step.functional (s : Client α) (e : QueueCall α) (t u : Client α) (ht : s.Step e t)
    (hu : s.Step e u) : t = u := Except.ok.inj (ht.2.symm.trans hu.2)

theorem Holds.run {es : List (QueueCall α)} (h₀ : Holds ∅ (start m))
    (h : Runs Step (start m) es s) : ∃ lost, Holds lost s ∧
      (lost = ∅ ↔ Runs (fun s e s' => Step s e s' ∧ s.Tidy e) (start m) es s) := by
  induction h with
  | nil => exact ⟨∅, h₀, iff_of_true rfl .nil⟩
  | @snoc es e t u h ht ih =>
    obtain ⟨lost, ht', hlost⟩ := ih
    obtain ⟨lost', hu, hlost'⟩ := ht'.call ht.1 ht.2
    refine ⟨lost', hu, ?_⟩
    rw [hlost', hlost, Runs.snoc_iff]
    constructor
    · exact fun htidy => ⟨t, htidy.1, ht, htidy.2⟩
    · rintro ⟨r, hr, -, htidy⟩
      obtain rfl := h.functional Step.functional (hr.mono fun _ _ _ hs => hs.1)
      exact ⟨hr, htidy⟩

/-- A run that starts right after `_queue_modinit` ends with each node in one place if and only
if every queue that it gives back is empty at the time. -/
theorem conserved_iff_tidy {es : List (QueueCall α)} (hm : queueModinit .zero = .ok m)
    (h : Runs Step (start m) es s) :
    s.Conserved ↔ Runs (fun s e s' => Step s e s' ∧ s.Tidy e) (start m) es s := by
  obtain ⟨lost, ⟨v, hv, ho⟩, hlost⟩ := (holds_start hm).run h
  rw [← hlost]
  exact conserved_iff hv ho

/-! ## Two runs -/

instance (s : Client α) : DecidablePred s.Allows
  | .alloc _ => .isTrue trivial
  | .init q _ => inferInstanceAs (Decidable (∃ r ∈ s.fresh, q = some r))
  | .insert q _ _ => inferInstanceAs (Decidable (∃ r ∈ s.live, q = some r))
  | .remove q => inferInstanceAs (Decidable (∃ r ∈ s.live, q = some r))
  | .dealloc q => inferInstanceAs (Decidable (∃ r ∈ s.live, q = some r))

instance (s : Client α) : DecidablePred s.Tidy
  | .dealloc (some q) => inferInstanceAs (Decidable ((s.module.queues q).first = none))
  | .dealloc none | .alloc _ | .init _ _ | .insert _ _ _ | .remove _ => .isTrue trivial

def step (s : Client α) (e : QueueCall α) : Option (Client α) :=
  if s.Allows e then (s.call e).toOption else none

theorem step_of_eq_some (h : s.step e = some s') : s.Step e s' := by
  unfold step at h
  split_ifs at h with ha
  exact ⟨ha, toOption_eq_some_iff.mp h⟩

def useOne : List (QueueCall Unit) :=
  [.alloc 1, .init (some 1) none, .insert (some 1) none 0, .remove (some 1), .dealloc (some 1)]

/-- What comes before a queue is given back with an item. -/
def leakOne : List (QueueCall Unit) := [.alloc 1, .init (some 1) none, .insert (some 1) none 0]

theorem conserved_useOne : ∃ m s, queueModinit .zero = .ok m ∧
    Runs Step (start m) useOne s ∧ s.Conserved := by
  obtain ⟨m, hm, -⟩ := queueModinit_spec (α := Unit) .zero rfl
  obtain ⟨s, hs⟩ : ∃ s, useOne.foldlM (fun s e => if s.Tidy e then s.step e else none)
      (start m) = some s := by
    apply Option.isSome_iff_exists.mp
    have hrun : ((queueModinit .zero).toOption.bind fun m => useOne.foldlM
        (fun s e => if s.Tidy e then s.step e else none) (start m)).isSome = true := by
      decide +kernel
    rwa [hm] at hrun
  have htidy : Runs (fun s e s' => Step s e s' ∧ s.Tidy e) (start m) useOne s := by
    refine (Runs.of_foldlM hs).mono fun t e u htu => ?_
    split_ifs at htu with ht
    exact ⟨step_of_eq_some htu, ht⟩
  have hrun := htidy.mono fun _ _ _ h => h.1
  exact ⟨m, s, hm, hrun, (conserved_iff_tidy hm hrun).mpr htidy⟩

/-- `_queue_dealloc` loses the node of the item that the queue holds. -/
theorem not_conserved_leakOne : ¬ ∀ (m : QueueModule Unit) (es : List (QueueCall Unit))
    (s : Client Unit), queueModinit .zero = .ok m → Runs Step (start m) es s → s.Conserved := by
  intro h
  obtain ⟨m, hm, -⟩ := queueModinit_spec (α := Unit) .zero rfl
  have hleak : ((queueModinit .zero).toOption.bind fun m =>
      (leakOne.foldlM step (start m)).map fun s => decide (¬ s.Tidy (.dealloc (some 1)) ∧
        (s.step (.dealloc (some 1))).isSome = true)) = some true := by
    decide +kernel
  rw [hm] at hleak
  obtain ⟨s, hs, hdealloc⟩ := Option.map_eq_some_iff.mp hleak
  obtain ⟨htidy, hstep⟩ := of_decide_eq_true hdealloc
  obtain ⟨t, ht⟩ := Option.isSome_iff_exists.mp hstep
  have hrun : Runs Step (start m) leakOne s :=
    (Runs.of_foldlM hs).mono fun _ _ _ h => step_of_eq_some h
  obtain ⟨lost, hlost, -⟩ := (holds_start hm).run hrun
  obtain ⟨lost', ⟨v, hv, ho⟩, hiff⟩ := hlost.call (step_of_eq_some ht).1 (step_of_eq_some ht).2
  have hconserved := h m _ t hm (hrun.snoc (step_of_eq_some ht))
  exact htidy (hiff.mp ((conserved_iff hv ho).mp hconserved)).2

end Client

end SystemsOS
