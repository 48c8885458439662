import Mathlib.Algebra.BigOperators.Fin
import Mathlib.Algebra.Order.BigOperators.Group.Finset
import Mathlib.Data.List.Sort
import Mathlib.Data.Multiset.Count
import SystemsOS.Library.Chain
import SystemsOS.Queue.Basic

/-! # The linked structure represents lists

`Spells lost m v` says that the links of the module spell out the abstract
contents `v` of every queue and that each of the `nQnodes` nodes is on the free
list or in one queue, exactly once, or is in `lost`. A module that `Represents`
its contents has lost none. Insertion and removal on the links become stable sorted
insertion and head removal on the lists.
-/

namespace SystemsOS

variable {α : Type}

/-- Items after `x` is queued: stable and sorted, or at the end without a comparison function. -/
def insertItem (compare : Option Compare) (x : UInt32 × VoidPtr α)
    (xs : List (UInt32 × VoidPtr α)) : List (UInt32 × VoidPtr α) :=
  match compare with
  | none => xs ++ [x]
  | some c => xs.orderedInsert (fun a b => c a.1 b.1 < 0) x

/-- What the module is for: the items of every queue, head first. -/
@[ext]
structure QueueView (α : Type) where
  items : QueueId → List (UInt32 × VoidPtr α)
  compare : QueueId → Option Compare
  freeQueues : QueueT

namespace QueueView

def insert (v : QueueView α) (q : QueueId) (x : UInt32 × VoidPtr α) : QueueView α :=
  { v with items := Function.update v.items q (insertItem (v.compare q) x (v.items q)) }

def remove (v : QueueView α) (q : QueueId) : QueueView α :=
  { v with items := Function.update v.items q (v.items q).tail }

def setCompare (v : QueueView α) (q : QueueId) (c : Option Compare) : QueueView α :=
  { v with compare := Function.update v.compare q c }

def clear (v : QueueView α) (q : QueueId) (c : Option Compare) : QueueView α :=
  { v.setCompare q c with items := Function.update v.items q [] }

def load (v : QueueView α) : ℕ := ∑ q, (v.items q).length

end QueueView

/-- The links spell out the free list `F` and the node lists `L`, which share no node and have all
but the nodes of `lost`. -/
structure Threads (lost : Finset NodeId) (m : QueueModule α) (F : List NodeId)
    (L : QueueId → List NodeId) : Prop where
  free : Chain m.link m.freeQnodes F
  first : ∀ q, Chain m.link (m.queues q).first (L q)
  last : ∀ q, (m.queues q).last = (L q).getLast?
  size : ∀ q, (m.queues q).size = UInt32.ofNat (L q).length
  count : ∀ n, F.count n + ∑ q, (L q).count n = if n ∈ lost then 0 else 1

/-- The module has the abstract contents, and no link leads to a node of `lost`. -/
def Spells (lost : Finset NodeId) (m : QueueModule α) (v : QueueView α) : Prop :=
  ∃ F L, Threads lost m F L ∧ (v.items = fun q => (L q).map m.item) ∧
    (v.compare = fun q => (m.queues q).compare) ∧ v.freeQueues = m.freeQueues

/-- The module represents the abstract contents: no node is lost. -/
abbrev Represents (m : QueueModule α) (v : QueueView α) : Prop := Spells ∅ m v

/-- The contents read off the links. -/
def QueueModule.view (m : QueueModule α) : QueueView α where
  items q := (walk m.link nQnodes (m.queues q).first).map m.item
  compare q := (m.queues q).compare
  freeQueues := m.freeQueues

theorem sum_update_add {ι β : Type*} [Fintype ι] [DecidableEq ι] (f : ι → β) (i : ι) (b : β)
    (g : β → ℕ) : ∑ j, g (Function.update f i b j) + g (f i) = ∑ j, g (f j) + g b := by
  have h : ∀ h : ι → β, ∑ j, g (h j) = g (h i) + ∑ j ∈ Finset.univ.erase i, g (h j) := fun h =>
    (Finset.add_sum_erase Finset.univ (fun j => g (h j)) (Finset.mem_univ i)).symm
  have he : ∑ j ∈ Finset.univ.erase i, g (Function.update f i b j) =
      ∑ j ∈ Finset.univ.erase i, g (f j) :=
    Finset.sum_congr rfl fun j hj => by rw [Function.update_of_ne (Finset.ne_of_mem_erase hj)]
  rw [h, h f, he, Function.update_self]
  omega

theorem forall_update_queue {P : Queue → List NodeId → Prop} {queues : QueueId → Queue}
    {L : QueueId → List NodeId} {q : QueueId} {x : Queue} {l : List NodeId} (hq : P x l)
    (hne : ∀ r, r ≠ q → P (queues r) (L r)) :
    ∀ r, P (Function.update queues q x r) (Function.update L q l r) := by
  intro r
  rcases eq_or_ne r q with rfl | hr
  · rwa [Function.update_self, Function.update_self]
  · rw [Function.update_of_ne hr, Function.update_of_ne hr]
    exact hne r hr

namespace QueueModule

@[simp] theorem link_setNode (m : QueueModule α) (n : NodeId) (v : Qnode α) :
    (m.setNode n v).link = Function.update m.link n v.next := by
  funext k; by_cases h : k = n <;> simp [link, setNode, h]

@[simp] theorem item_setNode (m : QueueModule α) (n : NodeId) (v : Qnode α) :
    (m.setNode n v).item = Function.update m.item n (v.key, v.data) := by
  funext k; by_cases h : k = n <;> simp [item, setNode, h]

@[simp] theorem qnodes_setNode (m : QueueModule α) (n : NodeId) (v : Qnode α) :
    (m.setNode n v).qnodes = Function.update m.qnodes n v := rfl

@[simp] theorem queues_setNode (m : QueueModule α) (n : NodeId) (v : Qnode α) :
    (m.setNode n v).queues = m.queues := rfl

@[simp] theorem freeQnodes_setNode (m : QueueModule α) (n : NodeId) (v : Qnode α) :
    (m.setNode n v).freeQnodes = m.freeQnodes := rfl

@[simp] theorem freeQueues_setNode (m : QueueModule α) (n : NodeId) (v : Qnode α) :
    (m.setNode n v).freeQueues = m.freeQueues := rfl

@[simp] theorem qnodes_setQueue (m : QueueModule α) (q : QueueId) (v : Queue) :
    (m.setQueue q v).qnodes = m.qnodes := rfl

@[simp] theorem link_setQueue (m : QueueModule α) (q : QueueId) (v : Queue) :
    (m.setQueue q v).link = m.link := rfl

@[simp] theorem item_setQueue (m : QueueModule α) (q : QueueId) (v : Queue) :
    (m.setQueue q v).item = m.item := rfl

@[simp] theorem queues_setQueue (m : QueueModule α) (q : QueueId) (v : Queue) :
    (m.setQueue q v).queues = Function.update m.queues q v := rfl

@[simp] theorem freeQnodes_setQueue (m : QueueModule α) (q : QueueId) (v : Queue) :
    (m.setQueue q v).freeQnodes = m.freeQnodes := rfl

@[simp] theorem freeQueues_setQueue (m : QueueModule α) (q : QueueId) (v : Queue) :
    (m.setQueue q v).freeQueues = m.freeQueues := rfl

end QueueModule

namespace Threads

variable {lost : Finset NodeId} {m : QueueModule α} {F : List NodeId} {L : QueueId → List NodeId}

theorem count_le (h : Threads lost m F L) (n : NodeId) :
    F.count n + ∑ q, (L q).count n ≤ 1 := by
  rw [h.count]
  split_ifs
  · exact Nat.zero_le 1
  · exact Nat.le_refl 1

theorem notMem_free (h : Threads lost m F L) {n : NodeId} {q : QueueId} (hn : n ∈ L q) : n ∉ F := by
  intro hF
  have h₁ := List.count_pos_iff.mpr hF
  have h₂ := List.count_pos_iff.mpr hn
  have h₃ := Finset.single_le_sum (f := fun q => (L q).count n) (fun _ _ => Nat.zero_le _)
    (Finset.mem_univ q)
  have := h.count_le n
  omega

theorem queue_unique (h : Threads lost m F L) {n : NodeId} {q r : QueueId} (hq : n ∈ L q)
    (hr : n ∈ L r) : q = r := by
  by_contra hne
  have h₁ := List.count_pos_iff.mpr hq
  have h₂ := List.count_pos_iff.mpr hr
  have h₃ := Finset.add_sum_erase Finset.univ (fun q => (L q).count n) (Finset.mem_univ q)
  have h₄ := Finset.single_le_sum (f := fun q => (L q).count n) (fun _ _ => Nat.zero_le _)
    (Finset.mem_erase.mpr ⟨fun he => hne he.symm, Finset.mem_univ r⟩)
  have := h.count_le n
  omega

theorem length_add (h : Threads lost m F L) :
    F.length + ∑ q, (L q).length + lost.card = nQnodes := by
  have hlen : ∀ l : List NodeId, ∑ n, l.count n = l.length := fun l => by
    simpa using Multiset.sum_count_eq_card (s := Finset.univ) (m := (l : Multiset NodeId)) (by simp)
  have hsum : F.length + ∑ q, (L q).length = ∑ n, (if n ∈ lost then 0 else 1) := by
    calc F.length + ∑ q, (L q).length
        = ∑ n, F.count n + ∑ q, ∑ n, (L q).count n := by simp only [hlen]
      _ = ∑ n, (F.count n + ∑ q, (L q).count n) := by
          rw [Finset.sum_comm, Finset.sum_add_distrib]
      _ = ∑ n, (if n ∈ lost then 0 else 1) := Finset.sum_congr rfl fun n _ => h.count n
  have hkept : ∑ n, (if n ∈ lost then 0 else 1) = lostᶜ.card := by
    have hcompl : ∀ n, (if n ∈ lost then 0 else 1) = if n ∈ lostᶜ then 1 else 0 := by simp
    simp only [hcompl, Finset.sum_ite_mem, Finset.univ_inter, Finset.sum_const, smul_eq_mul,
      mul_one]
  rw [hsum, hkept, Finset.card_compl_add_card, Fintype.card_fin]

theorem insert {m' : QueueModule α} {node : NodeId} (h : Threads lost m (node :: F) L) {q : QueueId}
    {xs ys : List NodeId} (hL : L q = xs ++ ys)
    (hfree : m'.freeQnodes = m.link node) (hlink : m'.link = splice m.link xs node ys)
    (hqueues : m'.queues = Function.update m.queues q
      { m.queues q with
        first := if xs = [] then some node else (m.queues q).first
        last := if ys = [] then some node else (m.queues q).last
        size := (m.queues q).size + 1 }) :
    Threads lost m' F (Function.update L q (xs ++ node :: ys)) := by
  have hnode : ∀ r, node ∉ L r := fun r hr => h.notMem_free hr List.mem_cons_self
  have hxs : ∀ k ∈ xs, k ∈ L q := fun k hk => hL ▸ List.mem_append_left _ hk
  constructor
  · rw [hfree, hlink]
    refine h.free.2.congr fun k hk => splice_of_notMem ?_ ?_
    · exact ne_of_mem_of_not_mem hk (List.nodup_cons.mp h.free.nodup).1
    · exact fun hx => h.notMem_free (hxs k hx) (List.mem_cons_of_mem _ hk)
  · rw [hlink, hqueues]
    refine forall_update_queue (P := fun x l => Chain _ x.first l) ?_ fun r hr => ?_
    · simpa using (hL ▸ h.first q : Chain m.link _ (xs ++ ys)).splice (hL ▸ hnode q)
    · refine (h.first r).congr fun k hk => splice_of_notMem ?_ ?_
      · exact ne_of_mem_of_not_mem hk (hnode r)
      · exact fun hx => hr (h.queue_unique hk (hxs k hx))
  · rw [hqueues]
    refine forall_update_queue (P := fun x l => x.last = l.getLast?) ?_ fun r _ => h.last r
    cases ys with
    | nil => simp
    | cons y ys => simp [h.last q, hL, List.getLast?_append, List.getLast?_cons]
  · rw [hqueues]
    refine forall_update_queue (P := fun x l => x.size = UInt32.ofNat l.length) ?_
      fun r _ => h.size r
    simp only [h.size q, hL, List.length_append, List.length_cons, ← Nat.add_assoc]
    simp only [UInt32.ofNat_add]
    rfl
  · intro k
    have hs := sum_update_add L q (xs ++ node :: ys) (List.count k)
    have hk := h.count k
    simp only [hL, List.count_append, List.count_cons] at hs hk ⊢
    omega

theorem remove {m' : QueueModule α} {node : NodeId} {ns : List NodeId} (h : Threads lost m F L)
    {q : QueueId} (hL : L q = node :: ns) (hfree : m'.freeQnodes = some node)
    (hlink : m'.link = Function.update m.link node m.freeQnodes)
    (hqueues : m'.queues = Function.update m.queues q
      { m.queues q with
        first := m.link node
        last := if (m.link node).isNone then none else (m.queues q).last
        size := (m.queues q).size - 1 }) :
    Threads lost m' (node :: F) (Function.update L q ns) := by
  have hnode : node ∈ L q := hL ▸ List.mem_cons_self
  have hfirst := h.first q
  rw [hL] at hfirst
  have hhead : m.link node = ns.head? := by simpa using hfirst.2.start
  constructor
  · rw [hfree, hlink]
    exact ⟨rfl, by simpa using h.free.update_of_notMem (h.notMem_free hnode)⟩
  · rw [hlink, hqueues]
    refine forall_update_queue (P := fun x l => Chain _ x.first l) ?_ fun r hr => ?_
    · exact hfirst.2.update_of_notMem (List.nodup_cons.mp hfirst.nodup).1
    · exact (h.first r).update_of_notMem fun hn => hr (h.queue_unique hn hnode)
  · rw [hqueues]
    refine forall_update_queue (P := fun x l => x.last = l.getLast?) ?_ fun r _ => h.last r
    rw [hhead]
    cases ns with
    | nil => simp
    | cons n ns => simp [h.last q, hL, List.getLast?_cons]
  · rw [hqueues]
    refine forall_update_queue (P := fun x l => x.size = UInt32.ofNat l.length) ?_
      fun r _ => h.size r
    simp only [h.size q, hL, List.length_cons, UInt32.ofNat_add]
    exact UInt32.add_sub_cancel _ _
  · intro k
    have hs := sum_update_add L q ns (List.count k)
    have hk := h.count k
    simp only [hL, List.count_cons] at hs hk ⊢
    omega

end Threads

theorem Spells.view_eq {lost : Finset NodeId} {m : QueueModule α} {v : QueueView α}
    (h : Spells lost m v) : m.view = v := by
  obtain ⟨F, L, hl, hi, hc, hf⟩ := h
  have hw : ∀ q, walk m.link nQnodes (m.queues q).first = L q := fun q =>
    (hl.first q).walk_eq (by simpa using (hl.first q).length_le)
  cases v
  simp only at hi hc hf
  simp [QueueModule.view, hw, hi, hc, hf]

end SystemsOS
