import Mathlib.Data.List.Nodup
import Mathlib.Data.List.Range
import Mathlib.Tactic.Common

/-! # Bytes laid out over blocks

A memory holds blocks of `d + 1` cells, of which the first is the header and the
other `d` are data. `fill` writes a buffer over the data of a list of blocks in
order and `gather` reads it back. The lemmas say which cells a write leaves alone,
what it puts in the others, and that blocks without repetition give the buffer back.
-/

namespace SystemsOS

variable {β : Type*} {d n a b o : ℕ} {bs : List ℕ} {buf mem : ℕ → β}

/-- The memory after `n` cells of a buffer are stored from `a` on. -/
def store (n a : ℕ) (buf mem : ℕ → β) : ℕ → β :=
  fun x => if a ≤ x ∧ x < a + n then buf (x - a) else mem x

/-- Write `n` cells of a buffer over the data of the blocks, `d` to a block. -/
def fill (d : ℕ) : List ℕ → ℕ → (ℕ → β) → (ℕ → β) → ℕ → β
  | [], _, _, mem => mem
  | b :: bs, n, buf, mem =>
    fill d bs (n - d) (fun i => buf (d + i)) (store (min n d) ((d + 1) * b + 1) buf mem)

/-- Read `n` cells from the data of the blocks, `d` from a block. -/
def gather (d : ℕ) : List ℕ → ℕ → (ℕ → β) → List β
  | [], _, _ => []
  | b :: bs, n, mem =>
    (List.range (min n d)).map (fun j => mem ((d + 1) * b + 1 + j)) ++ gather d bs (n - d) mem

theorem block_inj {b' o' : ℕ} (ho : o ≤ d) (ho' : o' ≤ d)
    (h : (d + 1) * b + o = (d + 1) * b' + o') : b = b' ∧ o = o' := by
  have hdiv (x y : ℕ) (hy : y ≤ d) : ((d + 1) * x + y) / (d + 1) = x := by
    rw [Nat.mul_add_div (Nat.succ_pos d), Nat.div_eq_of_lt (Nat.lt_succ_of_le hy), Nat.add_zero]
  have hb : b = b' := by rw [← hdiv b o ho, h, hdiv b' o' ho']
  subst hb
  exact ⟨rfl, Nat.add_left_cancel h⟩

theorem store_of_mem {x : ℕ} (ha : a ≤ x) (hx : x < a + n) :
    store n a buf mem x = buf (x - a) := if_pos ⟨ha, hx⟩

theorem store_of_notMem {x : ℕ} (h : ¬ (a ≤ x ∧ x < a + n)) : store n a buf mem x = mem x :=
  if_neg h

theorem store_zero (a : ℕ) (buf mem : ℕ → β) : store 0 a buf mem = mem := by
  ext x : 1
  exact store_of_notMem (by omega)

theorem store_succ (n a : ℕ) (buf mem : ℕ → β) : store (n + 1) a buf mem =
    store n (a + 1) (fun i => buf (i + 1)) (Function.update mem a (buf 0)) := by
  ext x : 1
  rcases Nat.lt_trichotomy x a with hx | rfl | hx
  · rw [store_of_notMem (by omega), store_of_notMem (by omega),
      Function.update_of_ne (Nat.ne_of_lt hx)]
  · rw [store_of_mem (Nat.le_refl x) (by omega), store_of_notMem (by omega), Function.update_self,
      Nat.sub_self]
  · by_cases hn : x < a + (n + 1)
    · rw [store_of_mem (Nat.le_of_lt hx) hn, store_of_mem hx (by omega),
        show x - (a + 1) + 1 = x - a by omega]
    · rw [store_of_notMem (by omega), store_of_notMem (by omega),
        Function.update_of_ne (Nat.ne_of_gt hx)]

theorem store_append (m n a : ℕ) (buf mem : ℕ → β) :
    store n (a + m) (fun i => buf (m + i)) (store m a buf mem) = store (m + n) a buf mem := by
  ext x : 1
  simp only [store]
  split_ifs
  all_goals first
    | rfl
    | omega
    | exact congrArg buf (by omega)

theorem foldl_store (d n a : ℕ) (buf mem : ℕ → β) :
    (List.range n).foldl (fun mem i => store d (a + d * i) (fun j => buf (d * i + j)) mem) mem =
      store (d * n) a buf mem := by
  induction n with
  | zero => exact (store_zero a buf mem).symm
  | succ n ih => rw [List.range_succ, List.foldl_append, ih, Nat.mul_succ, ← store_append]; rfl

theorem foldl_update (n a : ℕ) (buf mem : ℕ → β) :
    (List.range n).foldl (fun mem i => Function.update mem (a + i) (buf i)) mem =
      store n a buf mem := by
  induction n with
  | zero => exact (store_zero a buf mem).symm
  | succ n ih =>
    rw [List.range_succ, List.foldl_append, ih, ← store_append]
    ext x : 1
    rcases eq_or_ne x (a + n) with rfl | hx
    · simp [store]
    · simp only [List.foldl_cons, List.foldl_nil, Function.update_of_ne hx]
      exact (store_of_notMem (by omega)).symm

/-- A store into the data of one block reaches nothing outside it. -/
theorem store_block_of_ne {b' : ℕ} (hn : n ≤ d) (ho : o ≤ d) (h : b' ≠ b ∨ o = 0) :
    store n ((d + 1) * b + 1) buf mem ((d + 1) * b' + o) = mem ((d + 1) * b' + o) := by
  apply store_of_notMem
  rintro ⟨hlo, hhi⟩
  obtain ⟨k, hk⟩ := Nat.exists_eq_add_of_le hlo
  have heq : (d + 1) * b' + o = (d + 1) * b + (1 + k) := by omega
  obtain ⟨hb, ho'⟩ := block_inj ho (by omega) heq
  exact h.elim (absurd hb) (by omega)

theorem store_block (hn : o < n) :
    store n ((d + 1) * b + 1) buf mem ((d + 1) * b + 1 + o) = buf o := by
  rw [store_of_mem (by omega) (by omega), Nat.add_sub_cancel_left]

theorem fill_of_notMem (ho : o ≤ d) (h : b ∉ bs ∨ o = 0) :
    fill d bs n buf mem ((d + 1) * b + o) = mem ((d + 1) * b + o) := by
  induction bs generalizing n buf mem with
  | nil => rfl
  | cons x bs ih =>
    have hne : b ≠ x ∨ o = 0 := h.imp_left fun hb he => hb (he ▸ List.mem_cons_self)
    rw [fill, ih (h.imp_left fun hb he => hb (List.mem_cons_of_mem _ he)),
      store_block_of_ne (Nat.min_le_right n d) ho hne]

theorem fill_data (ho : o < d) :
    fill d bs n buf mem ((d + 1) * b + 1 + o) = mem ((d + 1) * b + 1 + o) ∨
      ∃ j, bs[j]? = some b ∧ d * j + o < n ∧
        fill d bs n buf mem ((d + 1) * b + 1 + o) = buf (d * j + o) := by
  induction bs generalizing n buf mem with
  | nil => exact .inl rfl
  | cons x bs ih =>
    rw [fill]
    rcases @ih (n - d) (fun i => buf (d + i)) (store (min n d) ((d + 1) * x + 1) buf mem) with
      hold | ⟨j, hj, hlt, hnew⟩
    · by_cases hx : b = x ∧ o < n
      · obtain ⟨rfl, hn⟩ := hx
        refine .inr ⟨0, rfl, by omega, ?_⟩
        rw [hold, store_block (by omega), Nat.mul_zero, Nat.zero_add]
      · refine .inl (hold.trans ?_)
        rcases eq_or_ne b x with rfl | hb
        · exact store_of_notMem (by omega)
        · rw [Nat.add_assoc]
          exact store_block_of_ne (Nat.min_le_right n d) (by omega) (.inl hb)
    · refine .inr ⟨j + 1, hj, ?_, ?_⟩
      · rw [Nat.mul_succ]
        omega
      · rw [hnew, Nat.mul_succ]
        congr 1
        omega

theorem fill_const {v : β} (ho : o ≤ d) (h : mem ((d + 1) * b + o) = v) :
    fill d bs n (fun _ => v) mem ((d + 1) * b + o) = v := by
  cases o with
  | zero => rw [fill_of_notMem ho (.inr rfl), h]
  | succ o =>
    rw [Nat.add_comm o, ← Nat.add_assoc] at h ⊢
    rcases @fill_data _ d n b o bs (fun _ => v) mem ho with hold | ⟨_, _, _, hnew⟩
    · exact hold.trans h
    · exact hnew

@[simp] theorem length_gather : (gather d bs n mem).length = min n (d * bs.length) := by
  induction bs generalizing n with
  | nil => simp [gather]
  | cons b bs ih =>
    rw [gather, List.length_append, ih, List.length_map, List.length_range, List.length_cons,
      Nat.mul_succ]
    omega

theorem gather_ne_nil (hd : 0 < d) (hn : 0 < n) : gather d (b :: bs) n mem ≠ [] := by
  apply List.ne_nil_of_length_pos
  rw [length_gather, List.length_cons, Nat.mul_succ]
  omega

theorem getElem?_gather {i : ℕ} (hi : bs[i]? = some b) (ho : o < d) (hn : d * i + o < n) :
    (gather d bs n mem)[d * i + o]? = some (mem ((d + 1) * b + 1 + o)) := by
  induction bs generalizing n i with
  | nil => cases hi
  | cons x bs ih =>
    rw [gather]
    cases i with
    | zero =>
      obtain rfl := Option.some.inj hi
      have hlt : o < min n d := by omega
      rw [Nat.mul_zero, Nat.zero_add, List.getElem?_append_left (by simpa using hlt)]
      simp [hlt]
    | succ i =>
      rw [Nat.mul_succ] at hn ⊢
      have hmin : min n d = d := by omega
      rw [List.getElem?_append_right (by simp only [List.length_map, List.length_range]; omega),
        List.length_map, List.length_range, hmin,
        show d * i + d + o - d = d * i + o by omega]
      exact ih hi (by omega)

theorem gather_zero : gather d bs 0 mem = [] :=
  List.eq_nil_of_length_eq_zero (by simp)

theorem gather_append {bs' : List ℕ} :
    gather d (bs ++ bs') n mem = gather d bs n mem ++ gather d bs' (n - d * bs.length) mem := by
  induction bs generalizing n with
  | nil => simp [gather]
  | cons b bs ih =>
    rw [List.cons_append, gather, gather, ih, List.append_assoc, List.length_cons, Nat.mul_succ,
      Nat.add_comm (d * _), Nat.sub_sub]

/-- What is written over distinct blocks is read back from them. -/
theorem gather_fill (hnd : bs.Nodup) (hn : n ≤ d * bs.length) :
    gather d bs n (fill d bs n buf mem) = (List.range n).map buf := by
  induction bs generalizing n buf mem with
  | nil =>
    obtain rfl : n = 0 := by simpa using hn
    rfl
  | cons b bs ih =>
    obtain ⟨hb, hnd⟩ := List.nodup_cons.mp hnd
    rw [List.length_cons, Nat.mul_succ] at hn
    rw [gather, fill, ih hnd (by omega)]
    have hfirst : (List.range (min n d)).map (fun j =>
        fill d bs (n - d) (fun i => buf (d + i)) (store (min n d) ((d + 1) * b + 1) buf mem)
          ((d + 1) * b + 1 + j)) = (List.range (min n d)).map buf := by
      apply List.map_congr_left
      intro j hj
      have hj := List.mem_range.mp hj
      rw [Nat.add_assoc, fill_of_notMem (by omega) (.inl hb), ← Nat.add_assoc, store_block hj]
    rw [hfirst]
    rcases Nat.le_total n d with hnd' | hnd'
    · simp [Nat.min_eq_left hnd', Nat.sub_eq_zero_of_le hnd']
    · rw [Nat.min_eq_right hnd']
      conv_rhs => rw [← Nat.add_sub_cancel' hnd', List.range_add, List.map_append, List.map_map]
      rfl

theorem block_eq_of_gather {ns : List ℕ} {i : ℕ} (hβ : ∀ x y : β, ∃ z, z ≠ x ∧ z ≠ y)
    (hd : 0 < d) (hlo : d * i < n) (hb : bs[i]? = some b)
    (h : ∀ buf, gather d ns n (fill d bs n buf mem) = (List.range n).map buf) :
    ns[i]? = some b := by
  have hlen : n ≤ d * ns.length := by
    have := congrArg List.length (h mem)
    simp only [length_gather, List.length_map, List.length_range] at this
    omega
  have hi : i < ns.length := Nat.lt_of_mul_lt_mul_left (Nat.lt_of_lt_of_le hlo hlen)
  have hx : ns[i]? = some ns[i] := List.getElem?_eq_getElem hi
  by_contra hne
  obtain ⟨z, -, -⟩ := hβ (mem 0) (mem 0)
  obtain ⟨v, hvz, hvx⟩ := hβ z (mem ((d + 1) * ns[i] + 1))
  let buf : ℕ → β := fun k => if k = d * i then v else z
  have hread : fill d bs n buf mem ((d + 1) * ns[i] + 1) = v := by
    have hcell := @getElem?_gather _ d n _ 0 ns (fill d bs n buf mem) i hx hd hlo
    rw [h buf] at hcell
    simpa [buf, hlo, eq_comm] using hcell
  rcases @fill_data _ d n ns[i] 0 bs buf mem hd with hold | ⟨j, hj, -, hnew⟩
  · exact hvx (hread.symm.trans hold)
  · have hji : j ≠ i := by
      rintro rfl
      exact hne (hx.trans (hj.symm.trans hb))
    have hcell : d * j ≠ d * i := fun he => hji (Nat.eq_of_mul_eq_mul_left hd he)
    exact hvz (hread.symm.trans (hnew.trans (if_neg hcell)))

/-- A write over `bs` is read back along `ns`, whatever is written, exactly when `ns` starts
with `bs`. -/
theorem gather_fill_iff {ns : List ℕ} (hβ : ∀ x y : β, ∃ z, z ≠ x ∧ z ≠ y) (hd : 0 < d)
    (hlo : ∀ i < bs.length, d * i < n) (hhi : n ≤ d * bs.length) (hnd : ns.Nodup) :
    (∀ buf, gather d ns n (fill d bs n buf mem) = (List.range n).map buf) ↔ bs <+: ns := by
  constructor
  · intro h
    rw [List.prefix_iff_getElem?]
    intro i hi
    exact block_eq_of_gather hβ hd (hlo i hi) (List.getElem?_eq_getElem hi) h
  · rintro ⟨ms, rfl⟩ buf
    rw [gather_append, gather_fill hnd.of_append_left hhi, Nat.sub_eq_zero_of_le hhi, gather_zero,
      List.append_nil]

end SystemsOS
