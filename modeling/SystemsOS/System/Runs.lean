import SystemsOS.Kernel.Sleep
import SystemsOS.Library.Traces
import SystemsOS.System.Basic

/-! # The kernel and the file system of the whole

Seen from the kernel, a call on a device or on the file system sets a return value and
no more, and so a run of the operating system is a run of the kernel. Seen from the
file system, it is a run of the calls on files that the processes make.
-/

namespace SystemsOS

open OperatingSystem

variable {bits : UartBits} {s s' : OperatingSystem} {e : OperatingSystem.Event} {r : Request}
  {out : List UInt8} {k : Kernel} {p : PcbId} {c : Context} {op : Op} {v : UInt32} {which : ℕ}

def Kernel.saved (k : Kernel) (p : PcbId) (c : Context) : Kernel :=
  k.setPcb p { k.pcbs p with context := some c }

namespace OperatingSystem

def Event.isTick : Event → Bool
  | .tick _ => true
  | _ => false

/-- The call of the file system that an interrupt makes. -/
def Event.fileOp : Event → Option Op
  | .syscall c r => r.op (whichOf c.eax)
  | _ => none

def Puts : Op → Prop
  | .read _ | .list => True
  | _ => False

instance : DecidablePred Puts
  | .read _ | .list => .isTrue trivial
  | .create _ _ | .delete _ | .write _ _ _ _ | .setDirectory _ => .isFalse not_false

def answer (s : OperatingSystem) (p : PcbId) : Op → Result
  | .read _ | .list => .bytes s.result
  | _ => .code ((s.kernel.pcbs p).context.elim 0 Context.eax).toUInt8

theorem exec_result {m m' : FsMemory} {res : Result} (hx : m.exec op = .ok (res, m')) :
    (Puts op ∧ ∃ bytes, res = .bytes bytes) ∨ (¬ Puts op ∧ ∃ code, res = .code code) := by
  cases op with
  | create n ty =>
    rw [FsMemory.exec_create] at hx
    exact .inr ⟨not_false, _, (congrArg Prod.fst (Except.ok.inj hx)).symm⟩
  | setDirectory d =>
    rw [FsMemory.exec_setDirectory] at hx
    exact .inr ⟨not_false, _, (congrArg Prod.fst (Except.ok.inj hx)).symm⟩
  | delete n | write n size buffer doAppend =>
    obtain ⟨⟨_, fs⟩, hcall, he⟩ := bind_eq_ok_iff.mp hx
    obtain ⟨⟨code, _⟩, -, hcode⟩ := bind_eq_ok_iff.mp hcall
    cases hcode
    cases he
    exact .inr ⟨not_false, code, rfl⟩
  | read n =>
    obtain ⟨⟨_, fs⟩, hcall, he⟩ := bind_eq_ok_iff.mp hx
    obtain ⟨bytes, -, hbytes⟩ := bind_eq_ok_iff.mp hcall
    cases hbytes
    cases he
    exact .inl ⟨trivial, bytes, rfl⟩
  | list =>
    obtain ⟨⟨_, fs⟩, hcall, he⟩ := bind_eq_ok_iff.mp hx
    rw [exec] at hcall
    generalize sfsList m.table = bytes at hcall
    cases hcall
    cases he
    exact .inl ⟨trivial, bytes, rfl⟩

theorem answer_of_puts (h : Puts op) : s.answer p op = .bytes s.result := by
  cases op <;> first | rfl | cases h

theorem answer_of_not_puts (h : ¬ Puts op) :
    s.answer p op = .code ((s.kernel.pcbs p).context.elim 0 Context.eax).toUInt8 := by
  cases op <;> first | rfl | exact absurd trivial h

/-- The calls of the file system and what they return, in the order in which they are made. -/
def calls (s : OperatingSystem) (e : Event) (s' : OperatingSystem) : List (Op × Result) :=
  match e.fileOp, s.kernel.current with
  | some op, some p => [(op, s'.answer p op)]
  | _, _ => []

/-! ## Handlers -/

theorem setRet_eq_ok_iff : s.setRet p v = .ok s' ↔
    ∃ k, SystemsOS.setRet p v s.kernel = .ok k ∧ { s with kernel := k } = s' := by
  simp only [setRet, bind_eq_ok_iff, mapError_eq_ok_iff, pure_eq_ok, Except.ok.injEq]

theorem lift_eq_ok_iff {f : Kernel → Except Fault Kernel} : s.lift f = .ok s' ↔
    ∃ k, f s.kernel = .ok k ∧ { s with kernel := k } = s' := by
  simp only [lift, bind_eq_ok_iff, mapError_eq_ok_iff, pure_eq_ok, Except.ok.injEq]

/-- What a call of the file system leaves of the system, and the value to return. -/
def afterFile (s : OperatingSystem) : Result × FsMemory → UInt32 × OperatingSystem
  | (.code c, files) => (c.toUInt32, { s with files })
  | (.bytes result, files) => (0, { s with files, result })

theorem doFile_eq_ok_iff {x : UInt32 × OperatingSystem} : s.doFile op = .ok x ↔
    ∃ r, s.files.exec op = .ok r ∧ r.1.Below ∧ s.afterFile r = x := by
  rw [doFile, bind_eq_ok_iff]
  simp only [mapError_eq_ok_iff]
  refine exists_congr fun ⟨r, files⟩ => and_congr_right fun _ => ?_
  cases r with
  | code c => simp only [afterFile, Result.Below, pure_eq_ok, Except.ok.injEq, true_and]
  | bytes result =>
    simp only [afterFile, Result.Below, pure_eq_ok]
    split_ifs with hbelow
    · simp only [Except.ok.injEq, hbelow, true_and]
    · simp only [hbelow, false_and]

theorem sysFile_eq_ok_iff : sysFile op p s = .ok s' ↔
    ∃ r, s.files.exec op = .ok r ∧ r.1.Below ∧
      (s.afterFile r).2.setRet p (s.afterFile r).1 = .ok s' := by
  rw [sysFile, bind_eq_ok_iff]
  simp only [doFile_eq_ok_iff]
  constructor
  · rintro ⟨_, ⟨r, hr, hbelow, rfl⟩, h⟩
    exact ⟨r, hr, hbelow, h⟩
  · rintro ⟨r, hr, hbelow, h⟩
    exact ⟨_, ⟨r, hr, hbelow, rfl⟩, h⟩

theorem afterFile_kernel (x : Result × FsMemory) : (s.afterFile x).2.kernel = s.kernel := by
  obtain ⟨r, files⟩ := x
  cases r <;> rfl

/-- The entry of the jump table, as far as the kernel goes. -/
def callOf : ℕ → Syscall
  | 0 => .exit
  | 1 => .spawnp
  | 2 => .sleep
  | 5 => .getProcessInfo
  | 6 => .getSystemInfo
  | _ => .device

theorem syscall_of_op (h : r.op which = some op) :
    s.syscall bits which r p = ([], ·) <$> sysFile op p s := by
  match which, h with
  | 7, h | 8, h | 9, h | 10, h | 11, h | 12, h =>
    cases h
    rfl

theorem whichOf_lt (eax : UInt32) : whichOf eax < 13 := by
  rw [whichOf]
  split
  · decide
  · next h => exact UInt32.lt_iff_toNat_lt.mp (UInt32.not_le.mp h)

theorem callOf_of_op (h : r.op which = some op) : callOf which = .device := by
  match which, h with
  | 7, h | 8, h | 9, h | 10, h | 11, h | 12, h => rfl

theorem ne_of_op (h : r.op which = some op) : which ≠ 3 ∧ which ≠ 4 := by
  constructor <;> rintro rfl <;> cases h

/-- What a call does, by the part of the system that handles it. -/
inductive Handled (bits : UartBits) (s : OperatingSystem) (r : Request) (p : PcbId) (which : ℕ) :
    List UInt8 → OperatingSystem → Prop where
  | kernel {k : Kernel} (hdevice : which ≠ 3 ∧ which ≠ 4) (hop : r.op which = none)
      (hk : SystemsOS.syscall (callOf which) r.arg 0 p s.kernel = .ok k) :
      Handled bits s r p which [] { s with kernel := k }
  | read {n : ℤ} {out : List UInt8} {d : Devices} {k : Kernel} (hwhich : which = 3)
      (hd : SystemsOS.sysRead (r.arg 1).toInt32 (r.arg 3).toInt32
        ⟨s.keyboard, r.screen, s.sio⟩ = .ok (n, out, d))
      (hk : SystemsOS.setRet p (UInt32.ofInt n) s.kernel = .ok k) :
      Handled bits s r p which out { s with kernel := k, keyboard := d.keyboard, sio := d.sio }
  | write {n : ℤ} {d : Devices} {k : Kernel} (hwhich : which = 4)
      (hd : SystemsOS.sysWrite bits (r.arg 1).toInt32 (r.mem (r.arg 2)) (r.arg 3).toInt32
        ⟨s.keyboard, r.screen, s.sio⟩ = .ok (n, d))
      (hk : SystemsOS.setRet p (UInt32.ofInt n) s.kernel = .ok k) :
      Handled bits s r p which [] { s with kernel := k, keyboard := d.keyboard, sio := d.sio }
  | file {op : Op} {x : Result × FsMemory} {k : Kernel} (hop : r.op which = some op)
      (hx : s.files.exec op = .ok x) (hbelow : x.1.Below)
      (hk : SystemsOS.setRet p (s.afterFile x).1 s.kernel = .ok k) :
      Handled bits s r p which [] { (s.afterFile x).2 with kernel := k }

set_option maxRecDepth 1000 in
theorem syscall_handled (h : s.syscall bits which r p = .ok (out, s')) (hwhich : which < 13) :
    Handled bits s r p which out s' := by
  have hlift {f : Kernel → Except Fault Kernel}
      (h : (([], ·) <$> s.lift f : Except SystemFault (List UInt8 × _)) = .ok (out, s')) :
      ∃ k, f s.kernel = .ok k ∧ out = [] ∧ s' = { s with kernel := k } := by
    obtain ⟨_, ht, he⟩ := map_eq_ok_iff.mp h
    obtain ⟨k, hk, rfl⟩ := lift_eq_ok_iff.mp ht
    cases he
    exact ⟨k, hk, rfl, rfl⟩
  have hfile {op : Op} (hop : r.op which = some op) : Handled bits s r p which out s' := by
    rw [syscall_of_op hop] at h
    obtain ⟨_, ht, he⟩ := map_eq_ok_iff.mp h
    cases he
    obtain ⟨x, hx, hbelow, hret⟩ := sysFile_eq_ok_iff.mp ht
    obtain ⟨k, hk, rfl⟩ := setRet_eq_ok_iff.mp hret
    rw [afterFile_kernel] at hk
    exact .file hop hx hbelow hk
  match which with
  | 0 | 1 | 2 | 5 | 6 =>
    obtain ⟨k, hk, rfl, rfl⟩ := hlift h
    exact .kernel (by decide) rfl hk
  | 3 =>
    obtain ⟨⟨n, buf, d⟩, hd, h⟩ := bind_eq_ok_iff.mp h
    obtain ⟨t, hret, he⟩ := bind_eq_ok_iff.mp h
    obtain ⟨k, hk, rfl⟩ := setRet_eq_ok_iff.mp hret
    cases he
    exact .read rfl (mapError_eq_ok_iff.mp hd) hk
  | 4 =>
    obtain ⟨_, ht, he⟩ := map_eq_ok_iff.mp h
    cases he
    obtain ⟨⟨n, d⟩, hd, hret⟩ := bind_eq_ok_iff.mp ht
    obtain ⟨k, hk, rfl⟩ := setRet_eq_ok_iff.mp hret
    exact .write rfl (mapError_eq_ok_iff.mp hd) hk
  | 7 | 8 | 9 | 10 | 11 | 12 => exact hfile rfl
  | n + 13 => omega

theorem Handled.syscall (h : Handled bits s r p which out s') (hwhich : which < 13) :
    s.syscall bits which r p = .ok (out, s') := by
  cases h with
  | @kernel k hdevice hop hk =>
    have hlift {f : Kernel → Except Fault Kernel} (hf : f s.kernel = .ok k) :
        (([], ·) <$> s.lift f : Except SystemFault (List UInt8 × _)) =
          .ok ([], { s with kernel := k }) :=
      map_eq_ok_iff.mpr ⟨_, lift_eq_ok_iff.mpr ⟨k, hf, rfl⟩, rfl⟩
    match which with
    | 0 | 1 | 2 | 5 | 6 => exact hlift hk
    | 3 => exact absurd rfl hdevice.1
    | 4 => exact absurd rfl hdevice.2
    | 7 | 8 | 9 | 10 | 11 | 12 => cases hop
    | n + 13 => omega
  | read hread hd hk =>
    subst hread
    refine bind_eq_ok_iff.mpr ⟨_, mapError_eq_ok_iff.mpr hd, ?_⟩
    exact bind_eq_ok_iff.mpr ⟨_, setRet_eq_ok_iff.mpr ⟨_, hk, rfl⟩, rfl⟩
  | write hwrite hd hk =>
    subst hwrite
    refine map_eq_ok_iff.mpr ⟨_, bind_eq_ok_iff.mpr ⟨_, mapError_eq_ok_iff.mpr hd, ?_⟩, rfl⟩
    exact setRet_eq_ok_iff.mpr ⟨_, hk, rfl⟩
  | @file op x k hop hx hbelow hk =>
    rw [← afterFile_kernel x] at hk
    rw [syscall_of_op hop]
    refine map_eq_ok_iff.mpr ⟨_, sysFile_eq_ok_iff.mpr ⟨x, hx, hbelow, ?_⟩, rfl⟩
    exact setRet_eq_ok_iff.mpr ⟨k, hk, rfl⟩

theorem syscall_kernel (h : s.syscall bits which r p = .ok (out, s')) (hwhich : which < 13) :
    ∃ dev, SystemsOS.syscall (callOf which) r.arg dev p s.kernel = .ok s'.kernel := by
  cases syscall_handled h hwhich with
  | kernel _ _ hk => exact ⟨0, hk⟩
  | read hread _ hk =>
    subst hread
    exact ⟨_, hk⟩
  | write hwrite _ hk =>
    subst hwrite
    exact ⟨_, hk⟩
  | file hop _ _ hk =>
    rw [callOf_of_op hop]
    exact ⟨_, hk⟩

theorem syscall_files (h : s.syscall bits which r p = .ok (out, s')) (hop : r.op which = none)
    (hwhich : which < 13) : s'.files = s.files ∧ s'.result = s.result := by
  cases syscall_handled h hwhich with
  | kernel | read | write => exact ⟨rfl, rfl⟩
  | file hsome =>
    rw [hop] at hsome
    cases hsome

/-! ## Interrupts -/

theorem isrSave_eq_ok_iff {k' : Kernel} : isrSave c k = .ok k' ↔
    ∃ p, k.current = some p ∧ k.saved p c = k' := by
  rw [isrSave]
  cases k.current with
  | none => simp
  | some p => simp [Kernel.saved]

theorem step_syscall_iff {x : List UInt8 × OperatingSystem} :
    step bits s (.syscall c r) = .ok x ↔ ∃ p, s.kernel.current = some p ∧
      { s with kernel := s.kernel.saved p c }.syscall bits (whichOf c.eax) r p = .ok x := by
  have hisr {p : PcbId} (hp : s.kernel.current = some p) : sysIsr bits r
      { s with kernel := s.kernel.saved p c } =
        { s with kernel := s.kernel.saved p c }.syscall bits (whichOf c.eax) r p := by
    simp [sysIsr, Kernel.saved, Kernel.setPcb, hp]
  rw [step, bind_eq_ok_iff]
  constructor
  · rintro ⟨t, ht, h⟩
    obtain ⟨k, hk, rfl⟩ := lift_eq_ok_iff.mp ht
    obtain ⟨p, hp, rfl⟩ := isrSave_eq_ok_iff.mp hk
    exact ⟨p, hp, hisr hp ▸ h⟩
  · rintro ⟨p, hp, h⟩
    refine ⟨_, lift_eq_ok_iff.mpr ⟨_, isrSave_eq_ok_iff.mpr ⟨p, hp, rfl⟩, rfl⟩, ?_⟩
    rw [hisr hp]
    exact h

theorem step_tick_iff {x : List UInt8 × OperatingSystem} : step bits s (.tick c) = .ok x ↔
    ∃ k, SystemsOS.step s.kernel (.tick c) = .ok k ∧ ([], { s with kernel := k }) = x := by
  rw [step, map_eq_ok_iff]
  constructor
  · rintro ⟨t, ht, rfl⟩
    obtain ⟨k, hk, rfl⟩ := lift_eq_ok_iff.mp ht
    exact ⟨k, hk, rfl⟩
  · rintro ⟨k, hk, rfl⟩
    exact ⟨_, lift_eq_ok_iff.mpr ⟨k, hk, rfl⟩, rfl⟩

theorem lift_isrSave_iff : s.lift (isrSave c) = .ok s' ↔
    ∃ p, s.kernel.current = some p ∧ { s with kernel := s.kernel.saved p c } = s' := by
  rw [lift_eq_ok_iff]
  constructor
  · rintro ⟨k, hk, rfl⟩
    obtain ⟨p, hp, rfl⟩ := isrSave_eq_ok_iff.mp hk
    exact ⟨p, hp, rfl⟩
  · rintro ⟨p, hp, rfl⟩
    exact ⟨_, isrSave_eq_ok_iff.mpr ⟨p, hp, rfl⟩, rfl⟩

theorem step_key_iff {code : ℤ} {x : List UInt8 × OperatingSystem} :
    step bits s (.key c code) = .ok x ↔ ∃ p keyboard, s.kernel.current = some p ∧
      cInputScanCode code s.keyboard = .ok keyboard ∧
        ([], { s with kernel := s.kernel.saved p c, keyboard }) = x := by
  rw [step, bind_eq_ok_iff]
  constructor
  · rintro ⟨t, ht, h⟩
    obtain ⟨p, hp, rfl⟩ := lift_isrSave_iff.mp ht
    obtain ⟨keyboard, hkey, he⟩ := bind_eq_ok_iff.mp h
    exact ⟨p, keyboard, hp, mapError_eq_ok_iff.mp hkey, Except.ok.inj he⟩
  · rintro ⟨p, keyboard, hp, hkey, rfl⟩
    refine ⟨_, lift_isrSave_iff.mpr ⟨p, hp, rfl⟩, ?_⟩
    exact bind_eq_ok_iff.mpr ⟨keyboard, mapError_eq_ok_iff.mpr hkey, rfl⟩

theorem step_serial_iff {pending : List Pending} {x : List UInt8 × OperatingSystem} :
    step bits s (.serial c pending) = .ok x ↔ ∃ p sio, s.kernel.current = some p ∧
      sioIsr bits pending s.sio = .ok sio ∧
        ([], { s with kernel := s.kernel.saved p c, sio }) = x := by
  rw [step, bind_eq_ok_iff]
  constructor
  · rintro ⟨t, ht, h⟩
    obtain ⟨p, hp, rfl⟩ := lift_isrSave_iff.mp ht
    obtain ⟨sio, hsio, he⟩ := bind_eq_ok_iff.mp h
    exact ⟨p, sio, hp, mapError_eq_ok_iff.mp hsio, Except.ok.inj he⟩
  · rintro ⟨p, sio, hp, hsio, rfl⟩
    refine ⟨_, lift_isrSave_iff.mpr ⟨p, hp, rfl⟩, ?_⟩
    exact bind_eq_ok_iff.mpr ⟨sio, mapError_eq_ok_iff.mpr hsio, rfl⟩

theorem setRet_saved (k : Kernel) (v : UInt32) : SystemsOS.setRet p v (k.saved p c) =
    .ok ((k.saved p c).saved p { c with eax := v }) := by
  have hsaved : ((k.saved p c).pcbs p).context = some c := by simp [Kernel.saved, Kernel.setPcb]
  rw [SystemsOS.setRet, hsaved]
  rfl

theorem kernel_syscall {arg : ℕ → UInt32} {dev : UInt32} (hp : k.current = some p) :
    SystemsOS.step k (.syscall c arg dev) =
      SystemsOS.syscall (syscallOf c.eax) arg dev p (k.saved p c) := by
  have hsave : isrSave c k = .ok (k.saved p c) := isrSave_eq_ok_iff.mpr ⟨p, hp, rfl⟩
  rw [SystemsOS.step, hsave, ok_bind, SystemsOS.sysIsr]
  simp [Kernel.saved, Kernel.setPcb, hp]

theorem kernel_saved (hp : k.current = some p) :
    SystemsOS.Step k (.syscall { c with eax := 3 } (fun _ => 0) c.eax) (k.saved p c) := by
  rw [SystemsOS.Step, kernel_syscall hp]
  simp [syscallOf, nSyscalls, SystemsOS.syscall, SystemsOS.setRet, Kernel.saved, Kernel.setPcb]

/-- An interrupt is one of the kernel. -/
theorem Step.kernel (h : Step bits s e s') :
    ∃ ke, SystemsOS.Step s.kernel ke s'.kernel ∧ ke.isTick = e.isTick := by
  obtain ⟨out, h⟩ := h
  cases e with
  | syscall c r =>
    obtain ⟨p, hp, h⟩ := step_syscall_iff.mp h
    obtain ⟨dev, hdev⟩ := syscall_kernel h (whichOf_lt _)
    refine ⟨.syscall c r.arg dev, ?_, rfl⟩
    rw [SystemsOS.Step, kernel_syscall hp]
    exact hdev
  | tick c =>
    obtain ⟨k, hk, he⟩ := step_tick_iff.mp h
    cases he
    exact ⟨.tick c, hk, rfl⟩
  | key c code =>
    obtain ⟨p, keyboard, hp, -, he⟩ := step_key_iff.mp h
    cases he
    exact ⟨_, kernel_saved hp, rfl⟩
  | serial c pending =>
    obtain ⟨p, sio, hp, -, he⟩ := step_serial_iff.mp h
    cases he
    exact ⟨_, kernel_saved hp, rfl⟩

theorem sysFile_answer {x : Result × FsMemory} (hx : s.files.exec op = .ok x)
    (h : sysFile op p s = .ok s') : s'.files = x.2 ∧ s'.answer p op = x.1 ∧
      (¬ Puts op → s'.result = s.result) := by
  obtain ⟨y, hy, -, hret⟩ := sysFile_eq_ok_iff.mp h
  obtain rfl := Except.ok.inj (hx.symm.trans hy)
  obtain ⟨k, hk, rfl⟩ := setRet_eq_ok_iff.mp hret
  have hcode {c : UInt8} (hk : SystemsOS.setRet p c.toUInt32 s.kernel = .ok k) :
      ((k.pcbs p).context.elim 0 Context.eax).toUInt8 = c := by
    unfold SystemsOS.setRet at hk
    split at hk
    · cases hk
    · cases hk
      simp [Kernel.setPcb]
  obtain ⟨res, files⟩ := x
  rcases exec_result hx with ⟨hputs, bytes, rfl⟩ | ⟨hno, code, rfl⟩
  · exact ⟨rfl, answer_of_puts hputs, fun hno => absurd hputs hno⟩
  · exact ⟨rfl, (answer_of_not_puts hno).trans (congrArg Result.code (hcode hk)), fun _ => rfl⟩

end OperatingSystem

def FsCall (m : FsMemory) (x : Op × Result) (m' : FsMemory) : Prop :=
  m.exec x.1 = .ok (x.2, m')

namespace OperatingSystem

/-- An interrupt is the calls of the file system that it makes, and the string at address 0 stays
there until one of them returns another. -/
theorem Step.files (h : Step bits s e s') : Runs FsCall s.files (s.calls e s') s'.files ∧
    ((∀ op ∈ e.fileOp, ¬ Puts op) → s'.result = s.result) := by
  obtain ⟨out, h⟩ := h
  cases e with
  | syscall c r =>
    obtain ⟨p, hp, h⟩ := step_syscall_iff.mp h
    cases hop : r.op (whichOf c.eax) with
    | none =>
      obtain ⟨hfiles, hresult⟩ := syscall_files h hop (whichOf_lt _)
      simp only [calls, Event.fileOp, hop, hfiles]
      exact ⟨.nil, fun _ => hresult⟩
    | some op =>
      rw [syscall_of_op hop] at h
      obtain ⟨t, ht, he⟩ := map_eq_ok_iff.mp h
      cases he
      obtain ⟨x, hx, -, -⟩ := sysFile_eq_ok_iff.mp ht
      obtain ⟨hfiles, hanswer, hresult⟩ := sysFile_answer hx ht
      simp only [calls, Event.fileOp, hop, hp, hfiles, hanswer]
      exact ⟨.single hx, fun hno => hresult (hno op rfl)⟩
  | tick c =>
    obtain ⟨k, -, he⟩ := step_tick_iff.mp h
    cases he
    exact ⟨.nil, fun _ => rfl⟩
  | key c code =>
    obtain ⟨p, keyboard, -, -, he⟩ := step_key_iff.mp h
    cases he
    exact ⟨.nil, fun _ => rfl⟩
  | serial c pending =>
    obtain ⟨p, sio, -, -, he⟩ := step_serial_iff.mp h
    cases he
    exact ⟨.nil, fun _ => rfl⟩

/-! ## Runs -/

theorem kernel_run {es : List Event} (h : Runs (Step bits) s es s') :
    ∃ kes, Runs SystemsOS.Step s.kernel kes s'.kernel ∧
      List.Forall₂ (fun e ke => SystemsOS.Event.isTick ke = e.isTick) es kes := by
  obtain ⟨kes, k, hr, rfl, hticks⟩ := h.relabel
    (R := fun (s : OperatingSystem) k => s.kernel = k) (V := SystemsOS.Step)
    (fun s e s' k hk hs => by
      obtain ⟨ke, hke, htick⟩ := hs.kernel
      exact ⟨ke, s'.kernel, hk ▸ hke, rfl, htick⟩) rfl
  exact ⟨kes, hr, hticks⟩

end OperatingSystem

end SystemsOS
