import SystemsOS.FileSystem.Calls
import SystemsOS.Library.Blocks
import SystemsOS.Library.CString

/-! # Paths in the arrays of literals

A relative name is made a path in the array of `"NO ISSUE"`, and the parents of a path
are built in the array of `""`, which lies 17 bytes below and is also what the name of
the root is compared with. So while the parents of a longer path are checked, the path is
overwritten, and what is stored for its name is the rest of it. The file is the last one
that is linked, and nothing that is read lies behind its literals.
-/

namespace SystemsOS

variable {fs : FileTable} {n p s t : CString} {ty : EntryType} {mem mem' : ℕ → UInt8}

/-! ## Strings in memory -/

def putString (a : ℕ) (s : CString) (mem : ℕ → UInt8) : ℕ → UInt8 :=
  store (s.length + 1) a (padded (s.map Subtype.val)) mem

/-- The string at an address, as far as its first `n` characters. -/
def getString (mem : ℕ → UInt8) : ℕ → ℕ → CString
  | 0, _ => []
  | n + 1, a => if h : mem a = 0 then [] else ⟨mem a, h⟩ :: getString mem n (a + 1)

theorem getString_congr {k a : ℕ} (h : ∀ x, a ≤ x → mem x = mem' x) :
    getString mem k a = getString mem' k a := by
  induction k generalizing a with
  | zero => rfl
  | succ k ih =>
    have hrest := ih (a := a + 1) fun x hx => h x (Nat.le_of_succ_le hx)
    simp only [getString, h a (Nat.le_refl a), hrest]

theorem putString_add {a k : ℕ} (hk : k ≤ s.length) :
    putString a s mem (a + k) = padded (s.map Subtype.val) k := by
  rw [putString, store_of_mem (by omega) (by omega), Nat.add_sub_cancel_left]

theorem putString_of_lt {a x : ℕ} (hx : a + s.length < x) : putString a s mem x = mem x :=
  store_of_notMem (by omega)

theorem padded_val {k : ℕ} (hk : k < s.length) : padded (s.map Subtype.val) k = s[k].val := by
  simp [padded, hk]

theorem getString_putString {a k : ℕ} (hk : k ≤ s.length) (m : ℕ) :
    getString (putString a s mem) m (a + k) = (s.drop k).take m := by
  induction m generalizing k with
  | zero => rfl
  | succ m ih =>
    rw [getString, putString_add hk]
    rcases Nat.lt_or_eq_of_le hk with hlt | rfl
    · rw [padded_val hlt, dif_neg s[k].property, List.drop_eq_getElem_cons hlt, List.take_succ_cons,
        Nat.add_assoc, ih hlt]
    · rw [dif_pos (padded_of_le (List.length_map _).le), List.drop_length, List.take_nil]

theorem putString_concat (s : CString) (c : CChar) (mem : ℕ → UInt8) : Function.update
    (Function.update (putString 0 s mem) s.length c.val) (s.length + 1) 0 =
      putString 0 (s ++ [c]) mem := by
  have hlen : (s ++ [c]).length = s.length + 1 := List.length_append
  have hread {x : ℕ} (t : CString) (hx : x ≤ t.length) :
      putString 0 t mem x = padded (t.map Subtype.val) x := by
    rw [← putString_add hx, Nat.zero_add]
  ext x : 1
  rw [Function.update_apply, Function.update_apply]
  split_ifs with hnul hnew
  · subst hnul
    rw [hread _ hlen.ge, padded_of_le (by simp)]
  · subst hnew
    rw [hread _ (by omega), padded_val (by omega)]
    simp
  · rcases Nat.lt_or_ge x s.length with hlt | hge
    · rw [hread s hlt.le, hread _ (by omega), padded_val hlt, padded_val (by omega),
        List.getElem_append_left hlt]
    · rw [putString_of_lt (by omega), putString_of_lt (by omega)]

/-! ## The literals of the file -/

/-- `""`, `"C:"`, `"|"`, `"\n"`, `"\nT:"` and `"\n%x\n"`, in the order in which they are stored. -/
def literalsBelow : List (List Char) :=
  [[], ['C', ':'], ['|'], ['\n'], ['\n', 'T', ':'], ['\n', '%', 'x', '\n']]

def noIssue : List Char := ['N', 'O', ' ', 'I', 'S', 'S', 'U', 'E']

def resultOffset : ℕ := (literalsBelow.map fun cs => cs.length + 1).sum

theorem resultOffset_eq : resultOffset = 17 := rfl

/-- The bytes from `""` on. -/
def literals : ℕ → UInt8 := padded ((literalsBelow ++ [noIssue]).flatMap fun cs =>
  cs.map (fun c => UInt8.ofNat c.toNat) ++ [0])

structure FsMemory where
  table : FileTable
  lit : ℕ → UInt8

def Relative (n : CString) : Prop := n.head? ≠ some separator

instance (n : CString) : Decidable (Relative n) := inferInstanceAs (Decidable (_ ≠ _))

/-- The character `k` at `entryName`, which is `result` or the name of the caller. -/
def entryChar (n : CString) (lit : ℕ → UInt8) (k : ℕ) : UInt8 :=
  if Relative n then lit (resultOffset + k) else padded (n.map Subtype.val) k

/-- The loop of `_sfs_create` over the path: is a parent missing, and what is at `checkName`? At
most `fuel` characters are left, with the NUL. -/
def checkParents (fs : FileTable) (n : CString) : ℕ → ℕ → (ℕ → UInt8) → Bool × (ℕ → UInt8)
  | 0, _, lit => (false, lit)
  | fuel + 1, k, lit =>
    let c := entryChar n lit k
    if c = 0 then (false, lit)
    else if c = separator.val ∧
        compare (fs.name (sfsExists fs (getString lit k 0) .directory)) root = 0 then (true, lit)
    else checkParents fs n fuel (k + 1) (Function.update (Function.update lit k c) (k + 1) 0)

namespace FsMemory

/-- `_adjust_filename` -/
def adjusted (n : CString) (m : FsMemory) : FsMemory :=
  if Relative n then
    { m with lit := putString resultOffset (adjustFilename m.table n) m.lit }
  else m

def create (n : CString) (ty : EntryType) (m : FsMemory) : UInt8 × FsMemory :=
  if compare n root = 0 ∧ ty = .directory then
    let i := sfsExists m.table n ty
    if compare (m.table.name i) (getString m.lit maxNameLength 0) = 0 then
      let entry := { m.table.entries i with
        name := .copy maxNameLength (n.take (maxFileNameLength - 1)), type := some ty }
      (7, { m with table := m.table.setEntry i entry })
    else (-7, m)
  else if len n ≤ 0 then (-2, m)
  else
    let entryName := adjustFilename m.table n
    let m := m.adjusted n
    if compare (m.table.name (sfsExists m.table entryName ty)) root ≠ 0 then (1, m)
    else
      let (missing, lit) := checkParents m.table n (len entryName) 1 (putString 0 root m.lit)
      if missing then (2, ⟨m.table, lit⟩)
      else match slots.find? fun i => m.table.name i = [] with
        | none => (-1, ⟨m.table, lit⟩)
        | some i =>
          let stored := if Relative n then getString lit (maxNameLength - 1) resultOffset else n
          (0, ⟨m.table.created i stored ty, lit⟩)

def named : Op → FsMemory → FsMemory
  | .create n _ | .delete n | .write n _ _ _ | .read n | .setDirectory n => adjusted n
  | .list => id

/-- A creation, and the other calls, which only build a path. -/
def exec (m : FsMemory) : Op → Except FsFault (Result × FsMemory)
  | .create n ty =>
    let (r, m) := m.create n ty
    .ok (.code r, m)
  | op => do
    let (r, table) ← SystemsOS.exec m.table op
    return (r, ⟨table, (m.named op).lit⟩)

def Step (m : FsMemory) (op : Op) (m' : FsMemory) : Prop := ∃ r, m.exec op = .ok (r, m')

end FsMemory

/-! ## What a creation stores -/

/-- What is stored for the name of a new entry, as far as it fits. -/
def storedPath (fs : FileTable) (n : CString) : CString :=
  if Relative n ∧ resultOffset ≤ len (adjustFilename fs n) then
    (adjustFilename fs n).drop resultOffset
  else adjustFilename fs n

theorem storedPath_of_absolute (h : ¬ Relative n) : storedPath fs n = n := by
  rw [storedPath, if_neg fun hrel => h hrel.1, adjustFilename_of_absolute (not_not.mp h)]

theorem storedPath_of_short (h : Relative n → len (adjustFilename fs n) < resultOffset) :
    storedPath fs n = adjustFilename fs n :=
  if_neg fun hlong => Nat.not_le.mpr (h hlong.1) hlong.2

/-- The path is read ahead of what is written. -/
theorem entryChar_eq {k : ℕ} (hk : k ≤ (adjustFilename fs n).length) (lit : ℕ → UInt8) :
    entryChar n (putString 0 ((adjustFilename fs n).take k)
      (FsMemory.adjusted n ⟨fs, lit⟩).lit) k =
        padded ((adjustFilename fs n).map Subtype.val) k := by
  have htake : ((adjustFilename fs n).take k).length ≤ k := List.length_take_le _ _
  have hoff := resultOffset_eq
  unfold entryChar FsMemory.adjusted
  split
  · rw [putString_of_lt (by omega)]
    exact putString_add hk
  · next habs => rw [adjustFilename_of_absolute (not_not.mp habs)]

/-- The loop looks for a missing parent and, if there is none, leaves the path at `checkName`. -/
theorem checkParents_eq {lit : ℕ → UInt8}
    (hsrc : ∀ k ≤ p.length, entryChar n (putString 0 (p.take k) lit) k =
      padded (p.map Subtype.val) k) {fuel k : ℕ} (hfuel : fuel + k = p.length + 1)
    (hk : k ≤ p.length) : (checkParents fs n fuel k (putString 0 (p.take k) lit)).1 =
        missingParent fs (p.take k) (p.drop k) ∧
      (missingParent fs (p.take k) (p.drop k) = false →
        (checkParents fs n fuel k (putString 0 (p.take k) lit)).2 = putString 0 p lit) := by
  induction fuel generalizing k with
  | zero => omega
  | succ fuel ih =>
    have hchar := hsrc k hk
    rcases Nat.lt_or_eq_of_le hk with hlt | rfl
    · have hlen : (p.take k).length = k := by rw [List.length_take]; omega
      have hchecked : getString (putString 0 (p.take k) lit) k 0 = p.take k := by
        have hread := @getString_putString (p.take k) lit 0 0 (Nat.zero_le _) k
        rwa [List.drop_zero, List.take_take, Nat.min_self] at hread
      have hnext : Function.update (Function.update (putString 0 (p.take k) lit) k p[k].val)
          (k + 1) 0 = putString 0 (p.take (k + 1)) lit := by
        have hconcat := putString_concat (p.take k) p[k] lit
        rwa [hlen, List.take_concat_get'] at hconcat
      rw [padded_val hlt] at hchar
      rw [List.drop_eq_getElem_cons hlt, missingParent, checkParents]
      simp only [hchar, if_neg p[k].property, hchecked, hnext, ← Subtype.ext_iff]
      split
      · exact ⟨rfl, fun hf => by cases hf⟩
      · rw [List.take_concat_get']
        exact ih (by omega) hlt
    · rw [padded_of_le (List.length_map _).le] at hchar
      rw [List.drop_length, List.take_length, missingParent, checkParents]
      rw [List.take_length] at hchar
      simp only [hchar, if_true]
      exact ⟨trivial, fun _ => trivial⟩

theorem created_take (fs : FileTable) (i : EntryId) (q : CString) (ty : EntryType) :
    fs.created i (q.take (maxNameLength - 1)) ty = fs.created i q ty := by
  have hcopy : Buf.copy maxNameLength (q.take (maxNameLength - 1)) = .copy maxNameLength q := by
    ext1
    exact List.take_take.trans (congrArg (q.take ·) (Nat.min_self _))
  cases ty <;> rw [FileTable.created, FileTable.created, hcopy]

theorem getString_result (hrel : Relative n) (lit : ℕ → UInt8) :
    getString (putString 0 (adjustFilename fs n) (FsMemory.adjusted n ⟨fs, lit⟩).lit)
      (maxNameLength - 1) resultOffset = (storedPath fs n).take (maxNameLength - 1) := by
  rw [FsMemory.adjusted, if_pos hrel]
  dsimp only
  generalize hp : adjustFilename fs n = p
  rw [storedPath, hp]
  by_cases hlong : resultOffset ≤ len p
  · have hread := @getString_putString p (putString resultOffset p lit) 0 resultOffset hlong
      (maxNameLength - 1)
    rw [Nat.zero_add] at hread
    rw [if_pos ⟨hrel, hlong⟩, hread]
  · have hread := @getString_putString p lit resultOffset 0 (Nat.zero_le _) (maxNameLength - 1)
    rw [Nat.add_zero, List.drop_zero] at hread
    rw [if_neg fun hboth => hlong hboth.2, ← hread]
    apply getString_congr
    intro x hx
    rw [len] at hlong
    exact putString_of_lt (by omega)

namespace FsMemory

theorem adjusted_table (n : CString) (m : FsMemory) : (m.adjusted n).table = m.table := by
  unfold adjusted
  split <;> rfl

/-- But for the root directory, a creation is one that stores the end of the path. -/
theorem create_eq (m : FsMemory) (hroot : ¬ (n = root ∧ ty = .directory))
    (hhead : (adjustFilename m.table n).head? = some separator) :
    ((m.create n ty).1, (m.create n ty).2.table) =
      createAs (storedPath m.table n) n ty m.table := by
  obtain ⟨fs, lit⟩ := m
  dsimp only at hhead ⊢
  obtain ⟨q, hq⟩ := List.head?_eq_some_iff.mp hhead
  have htake : (adjustFilename fs n).take 1 = root := by rw [hq]; rfl
  have hone : 1 ≤ (adjustFilename fs n).length := by rw [hq]; exact Nat.succ_pos _
  obtain ⟨hmissing, hleft⟩ := @checkParents_eq fs n (adjustFilename fs n) (adjusted n ⟨fs, lit⟩).lit
    (fun k hk => entryChar_eq hk lit) (len (adjustFilename fs n)) 1 rfl hone
  rw [htake, List.drop_one] at hmissing hleft
  have htable : (adjusted n ⟨fs, lit⟩).table = fs := adjusted_table n _
  rw [create, if_neg (by rwa [compare_eq_zero_iff]), createAs]
  simp only [htable]
  by_cases hempty : len n ≤ 0
  · rw [if_pos hempty, if_pos hempty]
  rw [if_neg hempty, if_neg hempty]
  by_cases hlive : compare (fs.name (sfsExists fs (adjustFilename fs n) ty)) root ≠ 0
  · rw [if_pos hlive, if_pos hlive, htable]
  rw [if_neg hlive, if_neg hlive, hmissing]
  cases hmiss : missingParent fs root (adjustFilename fs n).tail with
  | true => rfl
  | false =>
    rw [hleft hmiss, if_neg Bool.false_ne_true, if_neg Bool.false_ne_true]
    cases slots.find? fun i => fs.name i = [] with
    | none => rfl
    | some i =>
      dsimp only
      by_cases hrel : Relative n
      · rw [if_pos hrel, getString_result hrel, created_take]
      · rw [if_neg hrel, storedPath_of_absolute hrel]

theorem create_root {m : FsMemory} (h : WellFormed m.table) :
    (m.create root .directory).1 ≠ 0 ∧ (m.create root .directory).2.table = m.table := by
  have hi : m.table.Has (sfsExists m.table root .directory) root .directory := by
    have habs : adjustFilename m.table root = root := adjustFilename_of_absolute rfl
    rcases sfsExists_cases m.table root .directory with hi | ⟨hnone, -⟩
    · rwa [habs] at hi
    · rw [habs] at hnone
      exact absurd h.slot (hnone 0)
  rw [create, if_pos ⟨compare_eq_zero_iff.mpr rfl, rfl⟩]
  generalize sfsExists m.table root .directory = i at hi
  have hwhole : (root.take (maxFileNameLength - 1)).take (maxNameLength - 1) = root := by decide
  have hname : Buf.copy maxNameLength (root.take (maxFileNameLength - 1)) =
      (m.table.entries i).name := Buf.ext (hwhole.trans hi.1.symm)
  have hsame : m.table.setEntry i { m.table.entries i with
      name := .copy maxNameLength (root.take (maxFileNameLength - 1)), type := some .directory } =
        m.table := by
    rw [hname, ← hi.2]
    exact congrArg (fun entries => { m.table with entries }) (Function.update_eq_self i _)
  dsimp only
  split
  · exact ⟨(by decide : (7 : UInt8) ≠ 0), hsame⟩
  · exact ⟨(by decide : (-7 : UInt8) ≠ 0), rfl⟩

variable {m m' : FsMemory} {op : Op}

theorem create_cases (h : WellFormed m.table) (n : CString) (ty : EntryType) :
    (¬ Creatable m.table n ty ∧ (m.create n ty).1 ≠ 0 ∧ (m.create n ty).2.table = m.table) ∨
    (Creatable m.table n ty ∧ (m.create n ty).1 = 0 ∧ ∃ i, m.table.name i = [] ∧
      (m.create n ty).2.table = m.table.created i (storedPath m.table n) ty) := by
  by_cases hroot : n = root ∧ ty = .directory
  · obtain ⟨rfl, rfl⟩ := hroot
    obtain ⟨hcode, htable⟩ := create_root h
    exact .inl ⟨fun hc => hc.other ⟨rfl, rfl⟩, hcode, htable⟩
  · have hcases := createAs_cases h (storedPath m.table n) hroot
    rwa [← m.create_eq hroot (h.adjust_head n)] at hcases

theorem exec_create (m : FsMemory) (n : CString) (ty : EntryType) :
    m.exec (.create n ty) = .ok (.code (m.create n ty).1, (m.create n ty).2) := rfl

theorem exec_setDirectory (m : FsMemory) (d : CString) : m.exec (.setDirectory d) =
    .ok (.code (setDirectory d m.table).1, ⟨(setDirectory d m.table).2, (m.adjusted d).lit⟩) := rfl

theorem exec_of_ne_create (hop : ∀ n ty, op ≠ .create n ty) : m.exec op = (do
    let (r, table) ← SystemsOS.exec m.table op
    return (r, ⟨table, (m.named op).lit⟩)) := by
  cases op with
  | create n ty => exact absurd rfl (hop n ty)
  | _ => rfl

/-- A step changes the table as without the overlap, but for the name that a creation stores. -/
theorem Step.cases (h : WellFormed m.table) (hs : Step m op m') :
    (∃ n ty i, op = .create n ty ∧ Creatable m.table n ty ∧ m.table.name i = [] ∧
      m'.table = m.table.created i (storedPath m.table n) ty) ∨
    (∀ n ty, op = .create n ty → ¬ Creatable m.table n ty) ∧ Change m.table op m'.table := by
  obtain ⟨r, hx⟩ := hs
  by_cases hop : ∀ n ty, op ≠ .create n ty
  · rw [exec_of_ne_create hop] at hx
    obtain ⟨⟨_, table⟩, hcall, hm⟩ := bind_eq_ok_iff.mp hx
    cases hm
    exact .inr ⟨fun n ty hc => absurd hc (hop n ty), FsStep.change h ⟨r, hcall⟩⟩
  · simp only [not_forall, not_not] at hop
    obtain ⟨n, ty, rfl⟩ := hop
    rw [exec_create] at hx
    obtain rfl := (Prod.mk.inj (Except.ok.inj hx)).2
    rcases create_cases h n ty with ⟨hc, -, htable⟩ | ⟨hc, -, i, hfree, htable⟩
    · refine .inr ⟨fun n' ty' heq => ?_, ?_⟩
      · cases heq
        exact hc
      · rw [htable]
        exact .noCreate hc
    · exact .inl ⟨n, ty, i, rfl, hc, hfree, htable⟩

theorem Step.wellFormed (h : WellFormed m.table) (hs : Step m op m') : WellFormed m'.table := by
  rcases hs.cases h with ⟨n, ty, i, -, -, hfree, htable⟩ | ⟨-, hc⟩
  · rw [htable]
    exact h.created hfree _ _
  · exact hc.wellFormed h

/-- Where the overlap does no harm: not the root, and no relative name that makes a path of
`resultOffset` characters or more. -/
def Apart (fs : FileTable) : Op → Prop
  | .create n _ => n ≠ root ∧ (Relative n → len (adjustFilename fs n) < resultOffset)
  | _ => True

/-- Then a call returns and does what it returns and does without the overlap. -/
theorem exec_of_apart (h : WellFormed m.table) (hop : Apart m.table op) {r : Result}
    {fs' : FileTable} (hx : SystemsOS.exec m.table op = .ok (r, fs')) :
    ∃ lit, m.exec op = .ok (r, ⟨fs', lit⟩) := by
  cases op with
  | create n ty =>
    have hroot : ¬ (n = root ∧ ty = .directory) := fun hr => hop.1 hr.1
    have heq := m.create_eq hroot (h.adjust_head n)
    rw [storedPath_of_short hop.2, ← sfsCreate_eq hroot] at heq
    rw [SystemsOS.exec_create, ← heq] at hx
    obtain ⟨rfl, rfl⟩ := Prod.mk.inj (Except.ok.inj hx)
    exact ⟨(m.create n ty).2.lit, m.exec_create n ty⟩
  | _ =>
    rw [exec_of_ne_create (by rintro n ty ⟨⟩), hx]
    exact ⟨_, rfl⟩

end FsMemory

end SystemsOS
