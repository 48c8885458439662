import SystemsOS.Library.Sorted
import SystemsOS.Queue.Calls

/-! # A queue is a sorted list

Once it is initialised, a queue behaves as a list under stable sorted insertion and
removal of the head, whatever calls were made of the module before. It shares the free
nodes with the other queues, whose lists it leaves alone.
-/

namespace SystemsOS

variable {α : Type} {lost : Finset NodeId} {m m' : QueueModule α} {v : QueueView α}
  {q : QueueId} {c : Option Compare}

abbrev Items (α : Type) := List (UInt32 × VoidPtr α)

inductive QueueOp (α : Type) where
  | insert (data : VoidPtr α) (key : UInt32)
  | remove

def QueueOp.run (q : QueueId) (m : QueueModule α) :
    QueueOp α → Except Fault (Option (VoidPtr α) × QueueModule α)
  | .insert data key => do
    let m ← queueInsert (some q) data key m
    return (none, m)
  | .remove => do
    let (data, m) ← queueRemove (some q) m
    return (some data, m)

def runOps (q : QueueId) :
    List (QueueOp α) → QueueModule α → Except Fault (List (Option (VoidPtr α)) × QueueModule α)
  | [], m => .ok ([], m)
  | op :: ops, m => do
    let (out, m) ← op.run q m
    let (outs, m) ← runOps q ops m
    return (out :: outs, m)

/-! ## The list -/

/-- The order of the keys that the search of `_queue_insert` goes by. -/
def keyLe (c : Compare) (k k' : UInt32) : Prop := 0 ≤ c k' k

def itemLe (c : Compare) (x y : UInt32 × VoidPtr α) : Prop := keyLe c x.1 y.1

instance (c : Compare) : DecidableRel (itemLe c : UInt32 × VoidPtr α → UInt32 × VoidPtr α → Prop) :=
  fun x y => inferInstanceAs (Decidable (0 ≤ c y.1 x.1))

def listInsert (c : Option Compare) (x : UInt32 × VoidPtr α) (xs : Items α) : Items α :=
  match c with
  | none => xs ++ [x]
  | some c => stableInsert (itemLe c) x xs

/-- One call of the list, with room for as many items more. -/
def QueueOp.runList (c : Option Compare) : QueueOp α → ℕ × Items α →
    Except Fault (Option (VoidPtr α) × ℕ × Items α)
  | .insert _ _, (0, _) => .error (.kpanic "_queue_insert" "NULL qnode")
  | .insert data key, (room + 1, xs) => .ok (none, room, listInsert c (key, data) xs)
  | .remove, (room, []) => .ok (some none, room, [])
  | .remove, (room, x :: xs) => .ok (some x.2, room + 1, xs)

def runListOps (c : Option Compare) : List (QueueOp α) → ℕ × Items α →
    Except Fault (List (Option (VoidPtr α)) × ℕ × Items α)
  | [], s => .ok ([], s)
  | op :: ops, s => do
    let (out, s) ← op.runList c s
    let (outs, s) ← runListOps c ops s
    return (out :: outs, s)

theorem mem_listInsert {x y : UInt32 × VoidPtr α} {xs : Items α} :
    y ∈ listInsert c x xs ↔ y = x ∨ y ∈ xs := by
  cases c with
  | none => simp [listInsert, or_comm]
  | some f => exact mem_stableInsert

/-- The links and the calls that read a queue show the list. -/
structure QueueModule.Shows (m : QueueModule α) (q : QueueId) (xs : Items α) : Prop where
  links : ∃ ns, Chain m.link (m.queues q).first ns ∧ ns.map m.item = xs ∧
    (m.queues q).last = ns.getLast?
  size : ∃ n, queueSize (some q) m = .ok n ∧ n.toNat = xs.length
  kpeek : queueKpeek (some q) m = .ok (xs.head?.elim 0 Prod.fst)
  dpeek : queueDpeek (some q) m = .ok (xs.head?.elim none Prod.snd)

theorem Spells.shows (h : Spells lost m v) (q : QueueId) : m.Shows q (v.items q) := by
  have hdpeek := h.dpeek q
  obtain ⟨F, L, hl, hi, -⟩ := h
  have hfirst := (hl.first q).start
  have hlen := (hl.first q).length_le
  rw [hi] at hdpeek ⊢
  refine ⟨⟨L q, hl.first q, rfl, hl.last q⟩, ⟨_, rfl, ?_⟩, ?_, hdpeek⟩
  · rw [hl.size q, List.length_map]
    exact UInt32.toNat_ofNat_of_lt' (Nat.lt_of_le_of_lt hlen (by rw [Fintype.card_fin]; decide))
  · simp only [queueKpeek, nonNull, ok_bind, hfirst]
    cases L q <;> rfl

/-! ## The simulation -/

/-- What relates the module to the list of one of its queues: `v₀` has the other queues. -/
structure Tracks (v₀ : QueueView α) (q : QueueId) (c : Option Compare) (K : Set UInt32)
    (m : QueueModule α) (s : ℕ × Items α) : Prop where
  spells : ∃ lost v, Spells lost m v ∧ v.items q = s.2 ∧ v.compare q = c ∧
    (∀ r ≠ q, v.items r = v₀.items r) ∧ s.1 + v.load + lost.card = nQnodes
  sorted : ∀ f, c = some f → s.2.Pairwise (itemLe f)
  keys : ∀ x ∈ s.2, x.1 ∈ K

variable {v₀ : QueueView α} {K : Set UInt32} {s : ℕ × Items α}

theorem PreordersOn.items {f : Compare} (h : PreordersOn (keyLe f) K) :
    PreordersOn (itemLe f) {x : UInt32 × VoidPtr α | x.1 ∈ K} :=
  ⟨fun x hx y hy => h.total x.1 hx y.1 hy, fun x hx y hy z hz => h.trans x.1 hx y.1 hy z.1 hz⟩

/-- The search of the code finds the place of a stable insertion. -/
theorem insertItem_eq (hK : ∀ f, c = some f → PreordersOn (keyLe f) K) {x : UInt32 × VoidPtr α}
    {xs : Items α} (hx : x.1 ∈ K) (hxs : ∀ y ∈ xs, y.1 ∈ K)
    (hsorted : ∀ f, c = some f → xs.Pairwise (itemLe f)) :
    insertItem c x xs = listInsert c x xs := by
  cases c with
  | none => rfl
  | some f =>
    exact orderedInsert_eq_stableInsert (fun a b => Int.not_le.symm) (hK f rfl).items hx hxs
      (hsorted f rfl)

theorem Tracks.insert (h : Tracks v₀ q c K m s) (hK : ∀ f, c = some f → PreordersOn (keyLe f) K)
    {d : VoidPtr α} {k : UInt32} (hk : k ∈ K) :
    Agrees (fun r r' => r.1 = r'.1 ∧ Tracks v₀ q c K r.2 r'.2)
      ((QueueOp.insert d k).run q m) ((QueueOp.insert d k).runList c s) := by
  obtain ⟨⟨lost, v, hv, hitems, hc, hothers, hroom⟩, hsorted, hkeys⟩ := h
  obtain ⟨room, xs⟩ := s
  cases room with
  | zero =>
    simp only [QueueOp.run, hv.insert_full (by simp only at hroom; omega)]
    rfl
  | succ room =>
    simp only at hroom hitems hsorted hkeys
    obtain ⟨m', hm', h'⟩ := hv.insert (by omega) q d k
    simp only [QueueOp.run, hm', ok_bind]
    have hinsert : insertItem c (k, d) xs = listInsert c (k, d) xs :=
      insertItem_eq hK hk hkeys hsorted
    refine ⟨rfl, ⟨lost, _, h', ?_, hc, ?_, ?_⟩, ?_, ?_⟩
    · rw [QueueView.insert_items_self, hitems, hc, hinsert]
    · intro r hr
      rw [← hothers r hr]
      exact Function.update_of_ne hr _ _
    · rw [QueueView.load_insert]
      simp only
      omega
    · rintro f rfl
      exact pairwise_stableInsert (hK f rfl).items hk hkeys (hsorted f rfl)
    · intro y hy
      rcases mem_listInsert.mp hy with rfl | hy
      · exact hk
      · exact hkeys y hy

theorem Tracks.remove (h : Tracks v₀ q c K m s) :
    Agrees (fun r r' => r.1 = r'.1 ∧ Tracks v₀ q c K r.2 r'.2)
      (QueueOp.remove.run q m) (QueueOp.remove.runList c s) := by
  obtain ⟨⟨lost, v, hv, hitems, hc, hothers, hroom⟩, hsorted, hkeys⟩ := h
  obtain ⟨room, xs⟩ := s
  cases xs with
  | nil =>
    simp only [QueueOp.run, hv.remove_nil hitems, ok_bind]
    exact ⟨rfl, ⟨lost, v, hv, hitems, hc, hothers, hroom⟩, hsorted, hkeys⟩
  | cons x xs =>
    obtain ⟨m', hm', h'⟩ := hv.remove_cons hitems
    simp only [QueueOp.run, hm', ok_bind]
    refine ⟨rfl, ⟨lost, _, h', ?_, hc, ?_, ?_⟩, fun f hf => (hsorted f hf).of_cons,
      fun y hy => hkeys y (List.mem_cons_of_mem _ hy)⟩
    · simp [QueueView.remove, hitems]
    · intro r hr
      rw [← hothers r hr]
      exact Function.update_of_ne hr _ _
    · have hload := v.load_remove q (by rw [hitems]; exact List.cons_ne_nil _ _)
      simp only at hroom ⊢
      omega

theorem Tracks.runOps {ops : List (QueueOp α)} (h : Tracks v₀ q c K m s)
    (hK : ∀ f, c = some f → PreordersOn (keyLe f) K)
    (hops : ∀ d k, QueueOp.insert d k ∈ ops → k ∈ K) :
    Agrees (fun r r' => r.1 = r'.1 ∧ Tracks v₀ q c K r.2 r'.2)
      (runOps q ops m) (runListOps c ops s) := by
  induction ops generalizing m s with
  | nil => exact ⟨rfl, h⟩
  | cons op ops ih =>
    have hop : Agrees (fun r r' => r.1 = r'.1 ∧ Tracks v₀ q c K r.2 r'.2)
        (op.run q m) (op.runList c s) := by
      cases op with
      | insert d k => exact h.insert hK (hops d k List.mem_cons_self)
      | remove => exact h.remove
    refine hop.bind fun r r' hr => ?_
    refine (ih hr.2 fun d k hm => hops d k (List.mem_cons_of_mem _ hm)).bind fun t t' ht => ?_
    exact ⟨congrArg₂ _ hr.1 ht.1, ht.2⟩

def QueueModule.freeNodes (m : QueueModule α) : ℕ := (walk m.link nQnodes m.freeQnodes).length

/-- After any calls of the module, a queue that is initialised with no comparison function, or
with one that orders the keys used, behaves as a sorted list that has room for the free nodes: the
calls return the same, the queue shows the list after them, and the other queues show what they
did before. -/
theorem queue_refines_list (hm : m.Reached) (q : QueueId) (c : Option Compare) :
    ∃ m₁, queueInit (some q) c m = .ok m₁ ∧ m₁.Shows q [] ∧ ∀ ops : List (QueueOp α),
      (∀ f, c = some f → PreordersOn (keyLe f) {k | ∃ d, QueueOp.insert d k ∈ ops}) →
      Agrees
        (fun r r' => r.1 = r'.1 ∧ r.2.Shows q r'.2.2 ∧
          ∀ r₀ ≠ q, ∃ xs, m.Shows r₀ xs ∧ r.2.Shows r₀ xs)
        (runOps q ops m₁) (runListOps c ops (m₁.freeNodes, [])) := by
  obtain ⟨lost, v, hv, -⟩ := hm.sound
  obtain ⟨lost', m₁, hinit, h₁, hlost⟩ := hv.init q c
  have hnil : (v.clear q c).items q = [] := Function.update_self _ _ _
  refine ⟨m₁, hinit, hnil ▸ h₁.shows q, ?_⟩
  rintro ops hK
  have htracks : Tracks v q c {k | ∃ d, QueueOp.insert d k ∈ ops} m₁ (m₁.freeNodes, []) :=
    ⟨⟨lost', _, h₁, hnil, Function.update_self _ _ _, fun r hr => Function.update_of_ne hr _ _,
      h₁.free_add⟩, fun _ _ => List.Pairwise.nil, fun x hx => absurd hx List.not_mem_nil⟩
  refine (htracks.runOps hK fun d k hmem => ⟨d, hmem⟩).mono fun r r' hr => ⟨hr.1, ?_⟩
  obtain ⟨lost₂, v₂, h₂, hitems, -, hothers, -⟩ := hr.2.spells
  refine ⟨hitems ▸ h₂.shows q, fun r₀ hr₀ => ⟨v.items r₀, hv.shows r₀, ?_⟩⟩
  rw [← hothers r₀ hr₀]
  exact h₂.shows r₀

def threeInserts : List (QueueOp ℕ) :=
  [.insert (some (.obj 0)) 5, .insert (some (.obj 1)) 3, .insert (some (.obj 2)) 5, .remove]

/-- After `_queue_modinit` a sleep queue takes three items and gives back the one with the least
key; the other two stay in the order of their insertion. -/
theorem queue_refines_list_threeInserts : ∃ m₀ m₁ m₂ : QueueModule ℕ,
    queueModinit .zero = .ok m₀ ∧ queueInit (some 1) (some compareTime) m₀ = .ok m₁ ∧
      runOps 1 threeInserts m₁ = .ok ([none, none, none, some (some (.obj 1))], m₂) ∧
      m₂.Shows 1 [(5, some (.obj 0)), (5, some (.obj 2))] ∧
      ∀ r ≠ 1, ∃ xs, m₀.Shows r xs ∧ m₂.Shows r xs := by
  obtain ⟨m₀, hm₀, -⟩ := queueModinit_spec (α := ℕ) .zero rfl
  obtain ⟨m₁, hm₁, -, h⟩ := queue_refines_list ⟨m₀, hm₀, .refl m₀⟩ 1 (some compareTime)
  have hfree : m₁.freeNodes = 54 := by
    have hrun : (((queueModinit (.zero : QueueModule ℕ)).bind fun m =>
        queueInit (some 1) (some compareTime) m).map QueueModule.freeNodes).toOption = some 54 := by
      decide +kernel
    rw [hm₀] at hrun
    change ((queueInit (some 1) (some compareTime) m₀).map _).toOption = _ at hrun
    rw [hm₁] at hrun
    exact Option.some.inj hrun
  have hkeys (k : UInt32) (hk : ∃ d, QueueOp.insert d k ∈ threeInserts) : k = 5 ∨ k = 3 := by
    obtain ⟨d, hd⟩ := hk
    simp only [threeInserts, List.mem_cons, QueueOp.insert.injEq, reduceCtorEq, List.not_mem_nil,
      or_false] at hd
    rcases hd with ⟨-, rfl⟩ | ⟨-, rfl⟩ | ⟨-, rfl⟩ <;> simp
  have hagrees := h threeInserts (by
    rintro _ ⟨⟩
    unfold keyLe
    constructor
    · intro a ha b hb
      rcases hkeys a ha with rfl | rfl <;> rcases hkeys b hb with rfl | rfl <;> decide
    · intro a ha b hb d hd
      rcases hkeys a ha with rfl | rfl <;> rcases hkeys b hb with rfl | rfl <;>
        rcases hkeys d hd with rfl | rfl <;> decide)
  rw [hfree] at hagrees
  have hlist : runListOps (some compareTime) threeInserts (54, []) =
      .ok ([none, none, none, some (some (.obj 1))],
        52, [(5, some (.obj 0)), (5, some (.obj 2))]) := rfl
  rw [hlist] at hagrees
  obtain ⟨⟨outs, m₂⟩, hrun, rfl, hshows, hothers⟩ := hagrees.exists_ok
  exact ⟨m₀, m₁, m₂, hm₀, hm₁, hrun, hshows, hothers⟩

end SystemsOS
