import SystemsOS.Library.Runs
import SystemsOS.Queue.Spec

/-! # Runs of the queue module

Whatever calls are made of the module, in whatever order, the links of its free list and
of its queues are chains that share no node. What a call may do besides is to lose the
nodes of a queue whose header it clears.
-/

namespace SystemsOS

variable {α : Type} {lost : Finset NodeId} {m m' : QueueModule α} {v : QueueView α}

inductive QueueCall (α : Type) where
  | alloc (num : ℕ)
  | init (q : QueueT) (compare : Option Compare)
  | insert (q : QueueT) (data : VoidPtr α) (key : UInt32)
  | remove (q : QueueT)
  | dealloc (q : QueueT)

def QueueModule.call (m : QueueModule α) : QueueCall α → Except Fault (QueueModule α)
  | .alloc num => do
    let (_, m) ← queueAlloc num m
    return m
  | .init q compare => queueInit q compare m
  | .insert q data key => queueInsert q data key m
  | .remove q => do
    let (_, m) ← queueRemove q m
    return m
  | .dealloc q => queueDealloc q m

def QueueModule.Reached (m : QueueModule α) : Prop :=
  ∃ m₀, queueModinit .zero = .ok m₀ ∧
    Reachable (fun m (e : QueueCall α) m' => m.call e = .ok m') m₀ m

namespace Spells

theorem free_add (h : Spells lost m v) :
    (walk m.link nQnodes m.freeQnodes).length + v.load + lost.card = nQnodes := by
  obtain ⟨F, L, hl, hi, -⟩ := h
  have hlen := hl.length_add
  rw [hl.free.walk_eq (by simpa using hl.free.length_le)]
  simpa only [QueueView.load, hi, List.length_map] using hlen

theorem freeQnodes_none (h : Spells lost m v) (hfull : nQnodes ≤ v.load + lost.card) :
    m.freeQnodes = none := by
  have hfree := h.free_add
  obtain ⟨F, L, hl, -⟩ := h
  rw [hl.free.walk_eq (by simpa using hl.free.length_le)] at hfree
  have hF : F = [] := List.length_eq_zero_iff.mp (by omega)
  simpa [hF] using hl.free.start

theorem insert_full (h : Spells lost m v) (hfull : nQnodes ≤ v.load + lost.card) (q : QueueId)
    (d : VoidPtr α) (k : UInt32) :
    queueInsert (some q) d k m = .error (.kpanic "_queue_insert" "NULL qnode") := by
  simp only [queueInsert, nonNull, ok_bind, qnodeAlloc, h.freeQnodes_none hfull]

theorem insert_ok (h : Spells lost m v) {q : QueueId} {d : VoidPtr α} {k : UInt32}
    (hm : queueInsert (some q) d k m = .ok m') : Spells lost m' (v.insert q (k, d)) := by
  rcases Nat.lt_or_ge (v.load + lost.card) nQnodes with hroom | hfull
  · obtain ⟨m'', hm'', h''⟩ := h.insert hroom q d k
    rw [hm] at hm''
    cases hm''
    exact h''
  · rw [h.insert_full hfull] at hm
    cases hm

theorem remove_ok (h : Spells lost m v) {q : QueueId} {d : VoidPtr α}
    (hm : queueRemove (some q) m = .ok (d, m')) :
    d = (v.items q).head?.elim none Prod.snd ∧ Spells lost m' (v.remove q) := by
  cases hx : v.items q with
  | nil =>
    have hv : v.remove q = v := by
      rw [QueueView.remove, hx, List.tail_nil, ← hx, Function.update_eq_self]
    rw [h.remove_nil hx] at hm
    cases hm
    exact ⟨rfl, hv.symm ▸ h⟩
  | cons x xs =>
    obtain ⟨m'', hm'', h''⟩ := h.remove_cons hx
    rw [hm] at hm''
    cases hm''
    exact ⟨rfl, h''⟩

theorem freeQueues_eq (h : Spells lost m v) : m.freeQueues = v.freeQueues := by
  obtain ⟨F, L, -, -, -, hq⟩ := h
  exact hq.symm

theorem alloc_ok {num : ℕ} {f : QueueId} {qs : List QueueId} (h : Spells lost m v)
    (hf : v.freeQueues = some f) (hm : queueAlloc num m = .ok (qs, m')) :
    ∃ v', Spells lost m' v' ∧ v'.freeQueues = some f := by
  induction num generalizing m v qs with
  | zero =>
    cases hm
    exact ⟨v, h, hf⟩
  | succ num ih =>
    have hmf := h.freeQueues_eq.trans hf
    simp only [queueAlloc, hmf, h.empty f, ok_bind] at hm
    cases hx : (v.items f).isEmpty with
    | true =>
      rw [hx] at hm
      cases hm
      exact ⟨v, h, hf⟩
    | false =>
      rw [hx] at hm
      obtain ⟨⟨p, m₁⟩, hremove, hm⟩ := bind_eq_ok_iff.mp hm
      obtain ⟨q, hq, hm⟩ := bind_eq_ok_iff.mp hm
      obtain ⟨-, h₁⟩ := h.remove_ok hremove
      cases q with
      | none =>
        cases hm
        exact ⟨_, h₁, hf⟩
      | some q =>
        obtain ⟨⟨qs', m₂⟩, hrest, hm⟩ := bind_eq_ok_iff.mp hm
        cases hm
        exact ih h₁ hf hrest

theorem dealloc_ok {f q : QueueId} (h : Spells lost m v) (hf : v.freeQueues = some f)
    (hm : queueDealloc (some q) m = .ok m') : ∃ lost',
      Spells lost' m' ((v.clear q none).insert f (0, some (.queue q))) ∧
      lost'.card = lost.card + (v.items q).length := by
  obtain ⟨lost', m₁, hinit, h₁, hlost⟩ := h.init q none
  have hz : m₁ = m.setQueue q Queue.zero := by
    simpa [queueInit, nonNull, Queue.zero] using hinit.symm
  simp only [queueDealloc, h.freeQueues_eq.trans hf, ← hz] at hm
  exact ⟨lost', h₁.insert_ok hm, hlost⟩

end Spells

/-- The module has some contents, with a queue for the free headers. -/
def QueueModule.Sound (m : QueueModule α) : Prop :=
  ∃ lost v, Spells lost m v ∧ v.freeQueues = some 0

theorem QueueModule.Sound.call {e : QueueCall α} (h : m.Sound) (hm : m.call e = .ok m') :
    m'.Sound := by
  obtain ⟨lost, v, h, hf⟩ := h
  cases e with
  | alloc num =>
    obtain ⟨⟨qs, m₁⟩, halloc, hm⟩ := bind_eq_ok_iff.mp hm
    cases hm
    obtain ⟨v', h', hf'⟩ := h.alloc_ok hf halloc
    exact ⟨lost, v', h', hf'⟩
  | init q c =>
    cases q with
    | none => cases hm
    | some q =>
      obtain ⟨lost', m₁, hinit, h₁, -⟩ := h.init q c
      cases hinit.symm.trans hm
      exact ⟨lost', _, h₁, hf⟩
  | insert q d k =>
    cases q with
    | none => cases hm
    | some q => exact ⟨lost, _, h.insert_ok hm, hf⟩
  | remove q =>
    obtain ⟨⟨d, m₁⟩, hremove, hm⟩ := bind_eq_ok_iff.mp hm
    cases hm
    cases q with
    | none => cases hremove
    | some q =>
      obtain ⟨-, h'⟩ := h.remove_ok hremove
      exact ⟨lost, _, h', hf⟩
  | dealloc q =>
    cases q with
    | none =>
      cases hm
      exact ⟨lost, v, h, hf⟩
    | some q =>
      obtain ⟨lost', h', -⟩ := h.dealloc_ok hf hm
      exact ⟨lost', _, h', hf⟩

theorem QueueModule.Reached.sound (h : m.Reached) : m.Sound := by
  obtain ⟨m₀, hinit, hreach⟩ := h
  obtain ⟨m₁, hm₁, h₁⟩ := queueModinit_spec (α := α) .zero rfl
  cases hinit.symm.trans hm₁
  exact hreach.invariant (fun _ _ _ hs ht => hs.call ht)
    ⟨∅, _, h₁, rfl⟩

end SystemsOS
