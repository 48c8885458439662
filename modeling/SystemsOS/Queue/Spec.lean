import SystemsOS.Queue.Linked

/-! # Specifications of the queue operations

Each operation on a module with the contents `v` succeeds when there is room and
leaves a module with the contents that the abstract operation gives. Callers cite
these lemmas and never unfold the operations.
-/

namespace SystemsOS

variable {α : Type} {lost : Finset NodeId} {m : QueueModule α} {v : QueueView α}

@[simp] theorem QueueView.insert_items_self (v : QueueView α) (q : QueueId)
    (x : UInt32 × VoidPtr α) :
    (v.insert q x).items q = insertItem (v.compare q) x (v.items q) := by
  simp [QueueView.insert]

@[simp] theorem QueueView.insert_compare (v : QueueView α) (q : QueueId)
    (x : UInt32 × VoidPtr α) : (v.insert q x).compare = v.compare := rfl

@[simp] theorem QueueView.remove_compare (v : QueueView α) (q : QueueId) :
    (v.remove q).compare = v.compare := rfl

@[simp] theorem length_insertItem (c : Option Compare) (x : UInt32 × VoidPtr α)
    (xs : List (UInt32 × VoidPtr α)) : (insertItem c x xs).length = xs.length + 1 := by
  cases c <;> simp [insertItem, List.orderedInsert_length]

theorem perm_insertItem (c : Option Compare) (x : UInt32 × VoidPtr α)
    (xs : List (UInt32 × VoidPtr α)) : (insertItem c x xs).Perm (x :: xs) := by
  cases c with
  | none => exact List.perm_append_singleton x xs
  | some c => exact List.perm_orderedInsert _ x xs

theorem QueueView.load_insert (v : QueueView α) (q : QueueId) (x : UInt32 × VoidPtr α) :
    (v.insert q x).load = v.load + 1 := by
  have h := sum_update_add v.items q (insertItem (v.compare q) x (v.items q)) List.length
  simp only [length_insertItem] at h
  simp only [load, insert]
  omega

theorem QueueView.load_remove (v : QueueView α) (q : QueueId) (h : v.items q ≠ []) :
    (v.remove q).load + 1 = v.load := by
  have h' := sum_update_add v.items q (v.items q).tail List.length
  have := List.length_pos_iff.mpr h
  simp only [List.length_tail] at h'
  simp only [load, remove]
  omega

theorem QueueView.clear_of_nil {q : QueueId} (h : v.items q = []) (c : Option Compare) :
    v.clear q c = v.setCompare q c := by
  rw [clear, ← h, Function.update_eq_self]
  rfl

theorem insertScan_eq (c : Compare) (key : UInt32) :
    ∀ (fuel : ℕ) (prev : Option NodeId) {curr : Option NodeId} {ns : List NodeId},
      Chain m.link curr ns →
      ns.length ≤ fuel →
      insertScan m c key fuel prev curr =
        .ok (((ns.takeWhile fun n => decide (0 ≤ c key (m.qnodes n).key)).getLast?).or prev,
          (ns.dropWhile fun n => decide (0 ≤ c key (m.qnodes n).key)).head?)
  | fuel, prev, _, [], h, _ => by obtain rfl := seg_nil.mp h; cases fuel <;> simp [insertScan]
  | fuel + 1, prev, _, n :: ns, h, hf => by
    obtain ⟨rfl, hs⟩ := h
    by_cases hc : 0 ≤ c key (m.qnodes n).key
    · have ih := insertScan_eq c key fuel (some n) hs (by simpa using hf)
      simp only [insertScan, hc, if_true, decide_true, List.takeWhile_cons_of_pos,
        List.dropWhile_cons_of_pos]
      rw [show (m.qnodes n).next = m.link n from rfl, ih]
      cases ns.takeWhile _ <;> simp [List.getLast?_cons]
    · simp [insertScan, hc]

section InsertLink

variable (q : QueueId) (node : NodeId) (xs ys : List NodeId)

theorem insertLink_link :
    (insertLink q node xs.getLast? ys.head? m).link = splice m.link xs node ys := by
  unfold insertLink splice
  cases xs.getLast? <;> cases ys.head? <;> simp

theorem insertLink_item (prev curr : Option NodeId) :
    (insertLink q node prev curr m).item = m.item := by
  unfold insertLink
  cases prev <;> cases curr <;> funext n <;>
    simp [QueueModule.item, QueueModule.setNode, QueueModule.setQueue, Function.update_apply] <;>
    split_ifs <;> simp_all

theorem insertLink_queues :
    (insertLink q node xs.getLast? ys.head? m).queues = Function.update m.queues q
      { m.queues q with
        first := if xs = [] then some node else (m.queues q).first
        last := if ys = [] then some node else (m.queues q).last
        size := (m.queues q).size + 1 } := by
  unfold insertLink
  rcases List.eq_nil_or_concat xs with rfl | ⟨xs, p, rfl⟩ <;> cases ys <;> simp

theorem insertLink_freeQnodes (prev curr : Option NodeId) :
    (insertLink q node prev curr m).freeQnodes = m.freeQnodes := by
  cases prev <;> cases curr <;> rfl

theorem insertLink_freeQueues (prev curr : Option NodeId) :
    (insertLink q node prev curr m).freeQueues = m.freeQueues := by
  cases prev <;> cases curr <;> rfl

end InsertLink

namespace Spells

theorem empty (h : Spells lost m v) (q : QueueId) :
    queueEmpty (some q) m = .ok (v.items q).isEmpty := by
  obtain ⟨F, L, hl, hi, -⟩ := h
  have hf := (hl.first q).start
  simp only [queueEmpty, deref, ok_bind, hi, hf]
  cases L q <;> rfl

theorem kpeek (h : Spells lost m v) (q : QueueId) {x : UInt32 × VoidPtr α}
    {xs : List (UInt32 × VoidPtr α)} (hx : v.items q = x :: xs) :
    queueKpeek (some q) m = .ok x.1 := by
  obtain ⟨F, L, hl, hi, -⟩ := h
  have hf := (hl.first q).start
  rw [hi] at hx
  obtain ⟨n, ns, hL, rfl, -⟩ := List.map_eq_cons_iff.mp hx
  simp only [queueKpeek, nonNull, ok_bind, hf, hL]
  rfl

theorem dpeek (h : Spells lost m v) (q : QueueId) :
    queueDpeek (some q) m = .ok ((v.items q).head?.elim none Prod.snd) := by
  obtain ⟨F, L, hl, hi, -⟩ := h
  have hf := (hl.first q).start
  simp only [queueDpeek, nonNull, ok_bind, hi, hf]
  cases L q <;> rfl

theorem remove_nil (h : Spells lost m v) {q : QueueId} (hx : v.items q = []) :
    queueRemove (some q) m = .ok (none, m) := by
  obtain ⟨F, L, hl, hi, -⟩ := h
  have hf := (hl.first q).start
  rw [hi] at hx
  simp only [queueRemove, nonNull, ok_bind, hf, List.map_eq_nil_iff.mp hx]
  rfl

theorem remove_cons (h : Spells lost m v) {q : QueueId} {x : UInt32 × VoidPtr α}
    {xs : List (UInt32 × VoidPtr α)} (hx : v.items q = x :: xs) :
    ∃ m', queueRemove (some q) m = .ok (x.2, m') ∧ Spells lost m' (v.remove q) := by
  obtain ⟨F, L, hl, hi, hc, hq⟩ := h
  rw [hi] at hx
  obtain ⟨n, ns, hL, rfl, rfl⟩ := List.map_eq_cons_iff.mp hx
  have hf : (m.queues q).first = some n := by simpa [hL] using (hl.first q).start
  refine ⟨_, by simp only [queueRemove, nonNull, ok_bind, hf]; rfl, n :: F, Function.update L q ns,
    hl.remove hL rfl ?_ rfl, ?_, ?_, ?_⟩
  · ext k : 1
    by_cases hk : k = n <;>
      simp [qnodeDealloc, QueueModule.link, QueueModule.setNode, QueueModule.setQueue, hk]
  · ext r : 1
    have hitem : ∀ k, QueueModule.item (qnodeDealloc n (m.setQueue q
        { m.queues q with
          first := (m.qnodes n).next
          last := if (m.qnodes n).next.isNone then none else (m.queues q).last
          size := (m.queues q).size - 1 })) k = m.item k := fun k => by
      by_cases hk : k = n <;>
        simp [qnodeDealloc, QueueModule.item, QueueModule.setNode, QueueModule.setQueue, hk]
    simp only [QueueView.remove, hi, funext hitem]
    rcases eq_or_ne r q with rfl | hr
    · simp [hL]
    · simp [hr]
  · ext r : 1
    simp only [QueueView.remove, hc]
    rcases eq_or_ne r q with rfl | hr
    · simp [qnodeDealloc, QueueModule.setNode, QueueModule.setQueue]
    · simp [qnodeDealloc, QueueModule.setNode, QueueModule.setQueue, hr]
  · exact hq

/-- A module obtained by splicing a fresh node into a queue represents the longer list. -/
theorem of_splice {m' : QueueModule α} (xs ys : List NodeId) {F : List NodeId}
    {L : QueueId → List NodeId} {node : NodeId} {q : QueueId} {x : UInt32 × VoidPtr α}
    (hl : Threads lost m (node :: F) L)
    (hi : v.items = fun q => (L q).map m.item) (hc : v.compare = fun q => (m.queues q).compare)
    (hq : v.freeQueues = m.freeQueues) (hL : L q = xs ++ ys)
    (hfree : m'.freeQnodes = m.link node) (hlink : m'.link = splice m.link xs node ys)
    (hitem : m'.item = Function.update m.item node x)
    (hqueues : m'.queues = Function.update m.queues q
      { m.queues q with
        first := if xs = [] then some node else (m.queues q).first
        last := if ys = [] then some node else (m.queues q).last
        size := (m.queues q).size + 1 })
    (hfq : m'.freeQueues = m.freeQueues)
    (hx : insertItem (v.compare q) x (v.items q) = xs.map m.item ++ x :: ys.map m.item) :
    Spells lost m' (v.insert q x) := by
  refine ⟨F, _, hl.insert hL hfree hlink hqueues, ?_, ?_, ?_⟩
  · have hkeep : ∀ r, (L r).map m'.item = (L r).map m.item := fun r =>
      List.map_congr_left fun k hk => by
        rw [hitem, Function.update_of_ne]
        exact fun he => hl.notMem_free hk (he ▸ List.mem_cons_self)
    ext r : 1
    rcases eq_or_ne r q with rfl | hr
    · have hsplit := hkeep r
      simp only [hL, List.map_append] at hsplit
      obtain ⟨hxs, hys⟩ := List.append_inj hsplit (by simp)
      simp [QueueView.insert, hx, ← hxs, ← hys, hitem]
    · simp [QueueView.insert, hr, hi, hkeep]
  · ext r : 1
    rcases eq_or_ne r q with rfl | hr
    · simp [QueueView.insert, hqueues, hc]
    · simp [QueueView.insert, hqueues, hc, hr]
  · rw [hfq]; exact hq

theorem insertNode {m₁ : QueueModule α} {F : List NodeId} {L : QueueId → List NodeId}
    {node : NodeId} {x : UInt32 × VoidPtr α} (hl : Threads lost m (node :: F) L)
    (hi : v.items = fun q => (L q).map m.item) (hc : v.compare = fun q => (m.queues q).compare)
    (hq : v.freeQueues = m.freeQueues) (hfree : m₁.freeQnodes = m.link node)
    (hlink : m₁.link = Function.update m.link node none)
    (hitem : m₁.item = Function.update m.item node x) (hqueues : m₁.queues = m.queues)
    (hfq : m₁.freeQueues = m.freeQueues) (q : QueueId) :
    ∃ m', insertNode q node m₁ = .ok m' ∧ Spells lost m' (v.insert q x) := by
  have hnode : node ∉ L q := fun hn => hl.notMem_free hn List.mem_cons_self
  have hkey : ∀ n, (m₁.qnodes n).key = (m₁.item n).1 := fun _ => rfl
  have hfirst := (hl.first q).start
  rw [Option.or_none] at hfirst
  have hmap : ∀ ns : List NodeId, node ∉ ns → ns.map m₁.item = ns.map m.item := fun ns hns =>
    List.map_congr_left fun n hn => by
      rw [hitem, Function.update_of_ne (ne_of_mem_of_not_mem hn hns)]
  by_cases hL : L q = []
  · have hnone : (m₁.queues q).first.isNone = true := by simp [hqueues, hfirst, hL]
    refine ⟨m₁.setQueue q { m₁.queues q with first := some node, last := some node, size := 1 },
      by simp only [SystemsOS.insertNode, hnone, if_true]; rfl,
      of_splice [] [] hl hi hc hq hL hfree ?_ hitem ?_ hfq ?_⟩
    · simp [hlink, splice]
    · have hs : (m.queues q).size = 0 := by rw [hl.size q, hL]; rfl
      simp [hqueues, hs]
    · cases hcq : v.compare q <;> simp [insertItem, hi, hL]
  · have hsome : (m₁.queues q).first.isNone = false := by
      obtain ⟨n, ns, hn⟩ := List.exists_cons_of_ne_nil hL
      simp [hqueues, hfirst, hn]
    cases hcq : (m.queues q).compare with
    | none =>
      -- no comparison function: the node goes after the last one
      obtain ⟨xs, last, hxs⟩ := List.eq_nil_or_concat (L q) |>.resolve_left hL
      rw [List.concat_eq_append] at hxs
      have hlast : (m₁.queues q).last = some last := by rw [hqueues, hl.last q, hxs]; simp
      let m₂ := m₁.setNode last { m₁.qnodes last with next := some node }
      refine ⟨m₂.setQueue q { m₂.queues q with last := some node, size := (m₂.queues q).size + 1 },
        by simp only [SystemsOS.insertNode, hsome, hqueues ▸ hcq, hlast]; rfl,
        of_splice (L q) [] hl hi hc hq (by simp) hfree ?_ ?_ ?_ hfq ?_⟩
      · simp [m₂, hlink, splice, hxs]
      · rw [QueueModule.item_setQueue, QueueModule.item_setNode]
        exact (Function.update_eq_self last m₁.item).trans hitem
      · simp [m₂, hqueues, hL]
      · simp [insertItem, hc, hcq, hi]
    | some c =>
      let P : NodeId → Bool := fun n => decide (0 ≤ c (m₁.qnodes node).key (m₁.qnodes n).key)
      have hscan := insertScan_eq (m := m₁) c (m₁.qnodes node).key nQnodes none
        (hlink ▸ (hl.first q).update_of_notMem hnode) (by simpa using (hl.first q).length_le)
      have hLq := (List.takeWhile_append_dropWhile (p := P) (l := L q)).symm
      have hnode' := hLq ▸ hnode
      simp only [List.mem_append, not_or] at hnode'
      refine ⟨insertLink q node ((L q).takeWhile P).getLast? ((L q).dropWhile P).head? m₁,
        ?_, of_splice _ _ hl hi hc hq hLq ?_ ?_ ?_ ?_ ?_ ?_⟩
      · rw [← hqueues, Option.or_none] at hscan
        simp only [SystemsOS.insertNode, hsome, hqueues ▸ hcq, hscan]
        rfl
      · rw [insertLink_freeQnodes, hfree]
      · rw [insertLink_link, hlink, splice_update_self]
      · rw [insertLink_item, hitem]
      · rw [insertLink_queues, hqueues]
      · rw [insertLink_freeQueues, hfq]
      · have hx : x.1 = (m₁.qnodes node).key := by simp [hkey, hitem]
        have hP : P = (fun y => decide ¬ c x.1 y.1 < 0) ∘ m₁.item := by
          ext n : 1
          exact decide_eq_decide.mpr (by rw [hx]; exact Int.not_lt.symm)
        simp only [insertItem, hc, hcq, hi, List.orderedInsert_eq_take_drop]
        rw [← hmap _ hnode, ← hmap _ hnode'.1, ← hmap _ hnode'.2, hP, List.takeWhile_map,
          List.dropWhile_map]

theorem insert (h : Spells lost m v) (hroom : v.load + lost.card < nQnodes) (q : QueueId)
    (d : VoidPtr α)
    (k : UInt32) :
    ∃ m', queueInsert (some q) d k m = .ok m' ∧ Spells lost m' (v.insert q (k, d)) := by
  obtain ⟨F, L, hl, hi, hc, hq⟩ := h
  obtain ⟨node, F, rfl⟩ : ∃ node F', F = node :: F' := by
    apply List.exists_cons_of_length_pos
    have := hl.length_add
    simp only [QueueView.load, hi, List.length_map] at hroom
    omega
  simp only [queueInsert, nonNull, ok_bind, qnodeAlloc, hl.free.1]
  refine insertNode hl hi hc hq ?_ ?_ ?_ ?_ ?_ q
  · rfl
  · ext n : 1
    by_cases hn : n = node <;> simp [QueueModule.link, QueueModule.setNode, hn]
  · ext n : 1
    by_cases hn : n = node <;> simp [QueueModule.item, QueueModule.setNode, hn]
  · rfl
  · rfl


theorem init (h : Spells lost m v) (q : QueueId) (c : Option Compare) :
    ∃ lost' m', queueInit (some q) c m = .ok m' ∧ Spells lost' m' (v.clear q c) ∧
      lost'.card = lost.card + (v.items q).length := by
  obtain ⟨F, L, hl, hi, hc, hq⟩ := h
  have hnodup := (hl.first q).nodup
  have hmem {n : NodeId} (hn : n ∈ L q) : n ∉ lost := by
    intro hlost
    have hsum := Finset.single_le_sum (f := fun q => (L q).count n) (fun _ _ => Nat.zero_le _)
      (Finset.mem_univ q)
    have htotal := hl.count n
    have hpos := List.count_pos_iff.mpr hn
    rw [if_pos hlost] at htotal
    omega
  refine ⟨lost ∪ (L q).toFinset, _, rfl, ⟨F, Function.update L q [], ⟨hl.free, fun r => ?_,
    fun r => ?_, fun r => ?_, fun n => ?_⟩, ?_, ?_, hq⟩, ?_⟩
  · rcases eq_or_ne r q with rfl | hr
    · simp [QueueModule.setQueue]
    · simpa [hr] using hl.first r
  · rcases eq_or_ne r q with rfl | hr
    · simp
    · simpa [hr] using hl.last r
  · rcases eq_or_ne r q with rfl | hr
    · simp
    · simpa [hr] using hl.size r
  · have hsum := sum_update_add L q [] (List.count n)
    have htotal := hl.count n
    rw [hnodup.count, List.count_nil] at hsum
    simp only [Finset.mem_union, List.mem_toFinset]
    by_cases hn : n ∈ L q
    · rw [if_neg (hmem hn)] at htotal
      simp only [hn, or_true, if_true] at hsum ⊢
      omega
    · simp only [hn, or_false, if_false] at hsum ⊢
      omega
  · ext r : 1
    rcases eq_or_ne r q with rfl | hr
    · simp [QueueView.clear]
    · simp [QueueView.clear, QueueView.setCompare, hr, hi]
  · ext r : 1
    rcases eq_or_ne r q with rfl | hr
    · simp [QueueView.clear, QueueView.setCompare]
    · simp [QueueView.clear, QueueView.setCompare, hr, hc]
  · have hdisj : Disjoint lost (L q).toFinset := by
      rw [Finset.disjoint_right]
      exact fun n hn => hmem (List.mem_toFinset.mp hn)
    rw [Finset.card_union_of_disjoint hdisj, List.toFinset_card_of_nodup hnodup, hi,
      List.length_map]

theorem dealloc (h : Spells lost m v) {f : QueueId} (hf : v.freeQueues = some f) (q : QueueId)
    (hroom : (v.clear q none).load + lost.card + (v.items q).length < nQnodes) :
    ∃ lost' m', queueDealloc (some q) m = .ok m' ∧
      Spells lost' m' ((v.clear q none).insert f (0, some (.queue q))) ∧
      lost'.card = lost.card + (v.items q).length := by
  obtain ⟨lost', m₁, hm₁, h₁, hlost⟩ := h.init q none
  have hmf : m.freeQueues = some f := by
    obtain ⟨_, _, _, _, _, hq⟩ := h
    rw [← hq, hf]
  obtain ⟨m₂, hm₂, h₂⟩ := h₁.insert (by omega) f (some (.queue q)) 0
  refine ⟨lost', m₂, ?_, h₂, hlost⟩
  have hz : m₁ = m.setQueue q Queue.zero := by
    simpa [queueInit, nonNull, Queue.zero] using hm₁.symm
  simp only [queueDealloc, hmf, ← hz, hm₂]

theorem remove_insert (h : Spells lost m v) {q : QueueId} {k : UInt32} {d : VoidPtr α}
    (hx : v.items q = [(k, d)]) {m' : QueueModule α} (hm : queueRemove (some q) m = .ok (d, m')) :
    queueInsert (some q) d k m' = .ok m := by
  obtain ⟨F, L, hl, hi, -⟩ := h
  rw [hi] at hx
  obtain ⟨n, hL, hn⟩ := List.map_eq_singleton_iff.mp hx
  have hfirst := hl.first q
  have hlast := hl.last q
  have hsize := hl.size q
  rw [hL] at hfirst hlast hsize
  have hnode : m.qnodes n = ⟨k, d, none⟩ := by
    have hnext : m.link n = none := seg_nil.mp hfirst.2
    cases hq : m.qnodes n
    simp_all [QueueModule.item, QueueModule.link]
  obtain ⟨c, hqueue⟩ : ∃ c, m.queues q = ⟨some n, some n, c, 1⟩ := by
    have hf : (m.queues q).first = some n := by simpa using hfirst.start
    exists (m.queues q).compare
    cases hq : m.queues q
    simp_all
  have hm' : m' = qnodeDealloc n (m.setQueue q ⟨none, none, c, 0⟩) := by
    simp only [queueRemove, nonNull, ok_bind, hqueue, hnode, pure_eq_ok, Except.ok.injEq,
      Prod.mk.injEq] at hm
    simpa using hm.2.symm
  have hnodes : Function.update m.qnodes n ⟨k, d, none⟩ = m.qnodes := by
    rw [← hnode]; exact Function.update_eq_self _ _
  have hqueues : Function.update m.queues q ⟨some n, some n, c, 1⟩ = m.queues := by
    rw [← hqueue]; exact Function.update_eq_self _ _
  subst hm'
  simp [queueInsert, nonNull, qnodeAlloc, qnodeDealloc, SystemsOS.insertNode,
    QueueModule.setNode, QueueModule.setQueue, hnodes, hqueues, hnode]

end Spells

namespace Represents

theorem init (h : Represents m v) {q : QueueId} (hx : v.items q = []) (c : Option Compare) :
    ∃ m', queueInit (some q) c m = .ok m' ∧ Represents m' (v.setCompare q c) := by
  obtain ⟨lost, m', hm', h', hlost⟩ := Spells.init h q c
  rw [hx, Finset.card_empty] at hlost
  obtain rfl := Finset.card_eq_zero.mp hlost
  rw [QueueView.clear_of_nil hx] at h'
  exact ⟨m', hm', h'⟩

theorem dealloc (h : Represents m v) {f q : QueueId} (hf : v.freeQueues = some f)
    (hx : v.items q = []) (hroom : v.load < nQnodes) :
    ∃ m', queueDealloc (some q) m = .ok m' ∧
      Represents m' ((v.setCompare q none).insert f (0, some (.queue q))) := by
  have hclear := QueueView.clear_of_nil hx none
  obtain ⟨lost, m', hm', h', hlost⟩ := Spells.dealloc h hf q (by
    rw [hclear, hx, Finset.card_empty]
    exact hroom)
  rw [hx, Finset.card_empty] at hlost
  obtain rfl := Finset.card_eq_zero.mp hlost
  rw [hclear] at h'
  exact ⟨m', hm', h'⟩

theorem alloc {f : QueueId} : ∀ {m : QueueModule α} {v : QueueView α} (qs : List QueueId)
    (rest : List (UInt32 × VoidPtr α)), Represents m v → v.freeQueues = some f →
    v.items f = qs.map (fun q => (0, some (.queue q))) ++ rest →
    ∃ m', queueAlloc qs.length m = .ok (qs, m') ∧
      Represents m' { v with items := Function.update v.items f rest }
  | m, v, [], rest, h, _, hx => by
    refine ⟨m, rfl, ?_⟩
    have he : Function.update v.items f rest = v.items := by
      rw [← show v.items f = rest by simpa using hx]; exact Function.update_eq_self _ _
    rwa [he]
  | m, v, q :: qs, rest, h, hf, hx => by
    have hmf : m.freeQueues = some f := by
      obtain ⟨_, _, _, _, _, hq⟩ := h
      rw [← hq, hf]
    obtain ⟨m₁, hm₁, h₁⟩ := h.remove_cons (q := f) (by rw [hx]; rfl)
    obtain ⟨m₂, hm₂, h₂⟩ := alloc qs rest h₁ hf
      (by simp [QueueView.remove, hx])
    refine ⟨m₂, ?_, by simpa [QueueView.remove] using h₂⟩
    simp only [List.length_cons, queueAlloc, hmf, h.empty f, hx, hm₁, ok_bind]
    simp [asQueue, hm₂]

end Represents

theorem chain_foldl_qnodeDealloc : ∀ (ns : List NodeId) {m : QueueModule α} {F : List NodeId},
    ns.Nodup → (∀ n ∈ ns, n ∉ F) → Chain m.link m.freeQnodes F →
    Chain (ns.foldl (fun m i => qnodeDealloc i m) m).link
        (ns.foldl (fun m i => qnodeDealloc i m) m).freeQnodes (ns.reverse ++ F) ∧
      (ns.foldl (fun m i => qnodeDealloc i m) m).queues = m.queues ∧
      (ns.foldl (fun m i => qnodeDealloc i m) m).freeQueues = m.freeQueues
  | [], m, F, _, _, h => ⟨by simpa using h, rfl, rfl⟩
  | n :: ns, m, F, hnd, hF, h => by
    obtain ⟨hn, hns⟩ := List.nodup_cons.mp hnd
    have hstep : Chain (qnodeDealloc n m).link (qnodeDealloc n m).freeQnodes (n :: F) := by
      refine ⟨rfl, ?_⟩
      have hlink : (qnodeDealloc n m).link = Function.update m.link n m.freeQnodes :=
        m.link_setNode n { m.qnodes n with next := m.freeQnodes }
      rw [hlink, Function.update_self]
      exact h.update_of_notMem (hF n List.mem_cons_self)
    have hF' : ∀ k ∈ ns, k ∉ n :: F := fun k hk => by
      simp only [List.mem_cons, not_or]
      exact ⟨ne_of_mem_of_not_mem hk hn, hF k (List.mem_cons_of_mem _ hk)⟩
    obtain ⟨hc, hq, hf⟩ := chain_foldl_qnodeDealloc ns hns hF' hstep
    exact ⟨by simpa using hc, hq, hf⟩

def QueueView.headers (qs : List QueueId) : QueueView α where
  items q := if q = 0 then qs.map (fun r => (0, some (.queue r))) else []
  compare _ := none
  freeQueues := some 0

theorem QueueView.load_headers (qs : List QueueId) :
    (QueueView.headers qs : QueueView α).load = qs.length := by
  simp [load, headers, apply_ite List.length, Finset.sum_ite_eq']

theorem QueueView.setCompare_headers (qs : List QueueId) (q : QueueId) :
    (QueueView.headers qs : QueueView α).setCompare q none = .headers qs := by
  simp [setCompare, headers]

theorem QueueView.insert_headers (qs : List QueueId) (r : QueueId) :
    (QueueView.headers qs : QueueView α).insert 0 (0, some (.queue r)) = .headers (qs ++ [r]) := by
  simp only [insert, headers, QueueView.mk.injEq, and_true]
  ext k : 1
  rcases eq_or_ne k 0 with rfl | hk
  · simp [insertItem]
  · simp [hk]

theorem Represents.dealloc_headers : ∀ {m : QueueModule α} (qs rs : List QueueId), 0 ∉ rs →
    qs.length + rs.length ≤ nQnodes → Represents m (.headers qs) →
    ∃ m', rs.foldlM (fun m i => queueDealloc (some i) m) m = .ok m' ∧
      Represents m' (.headers (qs ++ rs))
  | m, qs, [], _, _, h => ⟨m, rfl, by simpa using h⟩
  | m, qs, r :: rs, h0, hlen, h => by
    simp only [List.mem_cons, not_or] at h0
    simp only [List.length_cons] at hlen
    obtain ⟨m₁, hm₁, h₁⟩ := h.dealloc (f := 0) (q := r) rfl
      (by simp [QueueView.headers, Ne.symm h0.1]) (by rw [QueueView.load_headers]; omega)
    rw [QueueView.setCompare_headers, QueueView.insert_headers] at h₁
    obtain ⟨m₂, hm₂, h₂⟩ := dealloc_headers (qs ++ [r]) rs h0.2 (by simp; omega) h₁
    exact ⟨m₂, by simp [hm₁, hm₂], by simpa using h₂⟩

/-- Header 0 is taken for the free queue and the others are put on it in order. -/
theorem queueModinit_spec (m : QueueModule α) (hm : m.queues = fun _ => Queue.zero) :
    ∃ m', queueModinit m = .ok m' ∧ Represents m' (.headers (List.finRange nQueues).tail) := by
  obtain ⟨hc, hq, -⟩ := chain_foldl_qnodeDealloc (List.finRange nQnodes)
    (m := { m with freeQnodes := none }) (F := []) (List.nodup_finRange _) (by simp) rfl
  generalize hm₁ : (List.finRange nQnodes).foldl (fun m i => qnodeDealloc i m)
    { m with freeQnodes := none } = m₁ at hc hq
  have hz : ∀ q, m₁.queues q = Queue.zero := fun q => by rw [hq]; exact congrFun hm q
  have h₁ : Represents { m₁ with freeQueues := some 0 } (.headers []) := by
    refine ⟨(List.finRange nQnodes).reverse, fun _ => [], ⟨?_, fun q => ?_, fun q => ?_,
      fun q => ?_, fun n => ?_⟩, ?_, ?_, rfl⟩
    · rw [List.append_nil] at hc; exact hc
    · rw [hz]; rfl
    · rw [hz]; rfl
    · rw [hz]; rfl
    · simp [List.count_reverse, List.count_eq_one_of_mem (List.nodup_finRange nQnodes)
        (List.mem_finRange n)]
    · funext q; simp [QueueView.headers]
    · funext q; rw [hz]; rfl
  obtain ⟨m₂, hm₂, h₂⟩ := h₁.init (q := 0) (by simp [QueueView.headers]) none
  rw [QueueView.setCompare_headers] at h₂
  obtain ⟨m₃, hm₃, h₃⟩ := h₂.dealloc_headers [] (List.finRange nQueues).tail (by decide) (by decide)
  refine ⟨m₃, ?_, by simpa using h₃⟩
  simp only [queueModinit, hm₁, hm₂, ok_bind, hm₃]

end SystemsOS
