import Mathlib.Data.List.Nodup
import Mathlib.Data.Fintype.Card
import Mathlib.Logic.Function.Basic
import Mathlib.Logic.Relation

/-! # Linked chains

Nodes carry a link to an optional successor. `Seg link p ns r` says that
following links from `p` visits exactly `ns` and leaves at `r`; a chain is a
segment that runs to the end. The lemmas say how segments compose, which link
updates they survive, and that a chain never visits a node twice.
-/

namespace SystemsOS

variable {ν : Type*} {link link' : ν → Option ν}

/-- Following links from `p` visits the nodes of the list in order and leaves at `r`. -/
def Seg (link : ν → Option ν) : Option ν → List ν → Option ν → Prop
  | p, [], r => p = r
  | p, n :: ns, r => p = some n ∧ Seg link (link n) ns r

/-- The links from `p` visit exactly the nodes of the list and then end. -/
abbrev Chain (link : ν → Option ν) (p : Option ν) (ns : List ν) : Prop := Seg link p ns none

/-- Follow links for at most `fuel` nodes and collect the nodes visited. -/
def walk (link : ν → Option ν) : ℕ → Option ν → List ν
  | _, none => []
  | 0, some _ => []
  | fuel + 1, some n => n :: walk link fuel (link n)

@[simp] theorem seg_nil {p r : Option ν} : Seg link p [] r ↔ p = r := Iff.rfl

@[simp] theorem seg_cons {p r : Option ν} {n : ν} {ns : List ν} :
    Seg link p (n :: ns) r ↔ p = some n ∧ Seg link (link n) ns r := Iff.rfl

theorem chain_none {ns : List ν} : Chain link none ns ↔ ns = [] := by
  cases ns <;> simp

theorem chain_some {n : ν} {ns : List ν} :
    Chain link (some n) ns ↔ ∃ ms, ns = n :: ms ∧ Chain link (link n) ms := by
  cases ns with
  | nil => simp
  | cons m ms =>
    constructor
    · rintro ⟨⟨⟩, h⟩
      exact ⟨ms, rfl, h⟩
    · rintro ⟨_, ⟨⟩, h⟩
      exact ⟨rfl, h⟩

theorem seg_append {p r : Option ν} {xs ys : List ν} :
    Seg link p (xs ++ ys) r ↔ ∃ q, Seg link p xs q ∧ Seg link q ys r := by
  induction xs generalizing p with
  | nil => simp
  | cons x xs ih => simp [ih, and_assoc]

theorem Seg.start {p r : Option ν} {ns : List ν} (h : Seg link p ns r) : p = ns.head?.or r := by
  cases ns with
  | nil => simpa using h
  | cons n ns => simpa using h.1

theorem Seg.congr {p r : Option ν} {ns : List ν} (hl : ∀ n ∈ ns, link' n = link n)
    (h : Seg link p ns r) : Seg link' p ns r := by
  induction ns generalizing p with
  | nil => exact h
  | cons n ns ih =>
    obtain ⟨rfl, hs⟩ := h
    refine ⟨rfl, ih (fun m hm => hl m (List.mem_cons_of_mem _ hm)) ?_⟩
    rwa [hl n List.mem_cons_self]

theorem Seg.unique {p : Option ν} {ns ms : List ν} (h : Chain link p ns)
    (h' : Chain link p ms) : ns = ms := by
  induction ns generalizing p ms with
  | nil => cases ms with
    | nil => rfl
    | cons m ms => obtain rfl := seg_nil.mp h; exact absurd h'.1 (by simp)
  | cons n ns ih => cases ms with
    | nil => obtain rfl := seg_nil.mp h'; exact absurd h.1 (by simp)
    | cons m ms =>
      obtain ⟨rfl, hs⟩ := h
      obtain ⟨hm, hs'⟩ := h'
      obtain rfl := Option.some.inj hm
      rw [ih hs hs']

/-- A chain that came back to a node would never end. -/
theorem Seg.nodup {p : Option ν} {ns : List ν} (h : Chain link p ns) : ns.Nodup := by
  induction ns generalizing p with
  | nil => exact List.nodup_nil
  | cons n ns ih =>
    obtain ⟨rfl, hs⟩ := h
    refine List.nodup_cons.mpr ⟨fun hm => ?_, ih hs⟩
    obtain ⟨xs, ys, rfl⟩ := List.append_of_mem hm
    obtain ⟨q, -, hq⟩ := seg_append.mp hs
    have hlen := congrArg List.length (Seg.unique hs hq.2)
    simp only [List.length_append, List.length_cons] at hlen
    omega

theorem Seg.split {p r : Option ν} {xs ms : List ν} (hc : Chain link p ms)
    (h : Seg link p xs r) : ∃ ys, ms = xs ++ ys ∧ Chain link r ys := by
  induction xs generalizing p ms with
  | nil => exact ⟨ms, rfl, h ▸ hc⟩
  | cons x xs ih =>
    obtain ⟨rfl, hs⟩ := h
    obtain ⟨ms, rfl, hms⟩ := chain_some.mp hc
    obtain ⟨ys, rfl, hys⟩ := ih hms hs
    exact ⟨ys, rfl, hys⟩

theorem Seg.length_le [Fintype ν] {p : Option ν} {ns : List ν} (h : Chain link p ns) :
    ns.length ≤ Fintype.card ν := h.nodup.length_le_card

theorem Seg.walk_eq {p : Option ν} {ns : List ν} (h : Chain link p ns) {fuel : ℕ}
    (hf : ns.length ≤ fuel) : walk link fuel p = ns := by
  induction ns generalizing p fuel with
  | nil => obtain rfl := seg_nil.mp h; simp [walk]
  | cons n ns ih =>
    obtain ⟨rfl, hs⟩ := h
    cases fuel with
    | zero => simp at hf
    | succ fuel => rw [walk, ih hs (by simpa using hf)]

theorem not_chain_le_zero {n : ν} : ¬ ∃ ns, Chain link (some n) ns ∧ ns.length ≤ 0 := by
  rintro ⟨ns, hns, hlen⟩
  obtain ⟨ms, rfl, -⟩ := chain_some.mp hns
  cases hlen

theorem chain_le_succ {n : ν} {k : ℕ} : (∃ ns, Chain link (some n) ns ∧ ns.length ≤ k + 1) ↔
    ∃ ns, Chain link (link n) ns ∧ ns.length ≤ k := by
  constructor
  · rintro ⟨ns, hns, hlen⟩
    obtain ⟨ms, rfl, hms⟩ := chain_some.mp hns
    exact ⟨ms, hms, Nat.le_of_succ_le_succ hlen⟩
  · rintro ⟨ns, hns, hlen⟩
    exact ⟨n :: ns, chain_some.mpr ⟨ns, rfl, hns⟩, Nat.succ_le_succ hlen⟩

theorem length_walk {k : ℕ} {p : Option ν} (h : ¬ ∃ ns, Chain link p ns ∧ ns.length ≤ k) :
    (walk link k p).length = k := by
  induction k generalizing p with
  | zero => cases p <;> rfl
  | succ k ih =>
    cases p with
    | none => exact absurd ⟨[], rfl, Nat.zero_le _⟩ h
    | some n =>
      rw [chain_le_succ] at h
      rw [walk, List.length_cons, ih h]

/-- Following links from one node leads to the other. -/
def Reach (link : ν → Option ν) : ν → ν → Prop :=
  Relation.ReflTransGen fun x y => link x = some y

variable [DecidableEq ν]

instance Seg.decidable (link : ν → Option ν) :
    ∀ (p : Option ν) (ns : List ν) (r : Option ν), Decidable (Seg link p ns r)
  | p, [], r => inferInstanceAs (Decidable (p = r))
  | p, n :: ns, r =>
    have := Seg.decidable link (link n) ns r
    inferInstanceAs (Decidable (p = some n ∧ Seg link (link n) ns r))

theorem Seg.update_of_notMem {p r v : Option ν} {ns : List ν} {n : ν} (hn : n ∉ ns)
    (h : Seg link p ns r) : Seg (Function.update link n v) p ns r :=
  h.congr fun _ hm => Function.update_of_ne (ne_of_mem_of_not_mem hm hn) _ _

theorem Seg.redirect {p r r' : Option ν} {xs : List ν} {m : ν} (hm : m ∉ xs)
    (h : Seg link p (xs ++ [m]) r) : Seg (Function.update link m r') p (xs ++ [m]) r' := by
  obtain ⟨q, hx, hq, -⟩ := seg_append.mp h
  exact seg_append.mpr ⟨q, hx.update_of_notMem hm, hq, by simp⟩

section update

variable {p b n : ν} {o : Option ν}

theorem Reach.update (h : Reach link p b) :
    Reach (Function.update link n o) p b ∨ Reach link n b := by
  induction h using Relation.ReflTransGen.head_induction_on with
  | refl => exact .inl .refl
  | @head x y hxy h ih =>
    by_cases hx : x = n
    · exact .inr (hx ▸ h.head hxy)
    · exact ih.imp_left fun h => h.head ((Function.update_of_ne hx _ _).trans hxy)

end update

/-! ## Insertion -/

/-- The links after `n` is put between `xs` and `ys`. -/
def splice (link : ν → Option ν) (xs : List ν) (n : ν) (ys : List ν) : ν → Option ν :=
  match xs.getLast? with
  | none => Function.update link n ys.head?
  | some m => Function.update (Function.update link n ys.head?) m (some n)

theorem splice_of_notMem {xs ys : List ν} {n k : ν} (hk : k ≠ n) (hx : k ∉ xs) :
    splice link xs n ys k = link k := by
  unfold splice
  cases hl : xs.getLast? with
  | none => exact Function.update_of_ne hk _ _
  | some m =>
    have hm : k ≠ m := fun he => hx (he ▸ List.mem_of_getLast? hl)
    simp [Function.update_of_ne, hk, hm]

@[simp] theorem splice_update_self (xs ys : List ν) (n : ν) (v : Option ν) :
    splice (Function.update link n v) xs n ys = splice link xs n ys := by
  unfold splice; cases xs.getLast? <;> simp

theorem Seg.splice {p : Option ν} {xs ys : List ν} {n : ν} (h : Chain link p (xs ++ ys))
    (hn : n ∉ xs ++ ys) :
    Chain (splice link xs n ys) (if xs = [] then some n else p) (xs ++ n :: ys) := by
  have hnd := h.nodup
  obtain ⟨q, hx, hy⟩ := seg_append.mp h
  have hq : q = ys.head? := by simpa using hy.start
  simp only [List.mem_append, not_or] at hn
  have hy' : Seg (Function.update link n ys.head?) ys.head? ys none :=
    (hq ▸ hy).update_of_notMem hn.2
  rcases List.eq_nil_or_concat xs with rfl | ⟨xs, m, rfl⟩
  · simpa [SystemsOS.splice] using hy'
  · have hm : m ∉ xs ∧ m ∉ ys := by
      simp only [List.concat_eq_append, List.nodup_append, List.mem_append] at hnd
      constructor
      · intro hmx; exact hnd.1.2.2 m hmx m (by simp) rfl
      · intro hmy; exact hnd.2.2 m (by simp) m hmy rfl
    have hnm : n ≠ m := fun he => hn.1 (by simp [he])
    simp only [List.concat_eq_append] at hx hn ⊢
    simp only [SystemsOS.splice, List.getLast?_append, List.getLast?_singleton, Option.some_or,
      List.append_eq_nil_iff, List.cons_ne_self, and_false, if_false]
    refine seg_append.mpr ⟨some n, (hx.update_of_notMem hn.1).redirect hm.1, rfl, ?_⟩
    rw [Function.update_of_ne hnm, Function.update_self]
    exact hy'.update_of_notMem hm.2

end SystemsOS
