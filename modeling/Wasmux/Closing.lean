import Wasmux.References

/-!
# Closing files

A file is closed when the last reference to its description goes, whichever
call drops it. What the store answers is lost there: a caller that closes the
last descriptor is told of success whether or not the file was committed.
-/

set_option autoImplicit false

namespace Wasmux
open Effects Abi

/-- `fd` is the last descriptor of an open file. -/
def Machine.LastOf (m : Machine) (fd : ℤ) (file : Handle) : Prop :=
  ∃ entry desc mount, m.ctx.task.fds.get fd = .ok entry ∧
    m.shared.descs.get entry.desc = some desc ∧ desc.kind = .file file mount false ∧ desc.refs ≤ 1

theorem Shared.releaseDesc_last {sh : Shared} {key : DescKey} {d : Desc} {file : Handle} {mount : ℕ}
    (hd : sh.descs.get key = some d) (hkind : d.kind = .file file mount false) (hrefs : d.refs ≤ 1) :
    (sh.releaseDesc key).1 = some file := by
  have hzero : d.refs - 1 = 0 := by omega
  have hrem := Slab.remove_get (sh.descs.modify key fun d => { d with refs := d.refs - 1 }) key
  rw [Slab.get_modify_self, hd] at hrem
  rw [Shared.releaseDesc, hd]
  dsimp only
  rw [if_neg (not_not.mpr hzero)]
  rcases hr : (sh.descs.modify key fun d => { d with refs := d.refs - 1 }).remove key with ⟨r, descs⟩
  rw [hr] at hrem
  obtain rfl : r = some { d with refs := d.refs - 1 } := hrem
  simp [Shared.dropDesc, hkind]

theorem FdTable.take_of_get {t : FdTable} {fd : ℤ} {entry : Fd} (h : t.get fd = .ok entry) :
    ∃ t', t.take fd = .ok (entry, t') := by
  unfold FdTable.get at h
  unfold FdTable.take
  split at h
  · cases h
  · rename_i hfd
    rw [if_neg hfd]
    split at h
    · rename_i e hslot
      obtain rfl := by simpa using h
      exact ⟨_, rfl⟩
    · cases h

theorem Machine.close_last {m : Machine} {fd : ℤ} {file : Handle} (h : m.LastOf fd file) :
    (m.close fd).1 = .ok (some file) := by
  obtain ⟨entry, d, mount, hfd, hd, hkind, hrefs⟩ := h
  obtain ⟨fds, htake⟩ := FdTable.take_of_get hfd
  have := Shared.releaseDesc_last hd hkind hrefs
  rw [Machine.close, htake]
  simp [this]

/-- What a `close` owes its caller when the store gives this answer. -/
structure Reports {ε : Type} (outcome : Except ε Outcome) (answer : Except Errno Unit) : Prop where
  success : outcome = .ok (.value 0) → answer = .ok ()
  failure : ∀ e, e ≠ .again → answer = .error e → outcome = .ok (.value e.asNeg)
  wait : answer = .error .again → outcome = .ok .blocked

section
variable {ε W : Type} (x : Env W)

theorem dispatch_close {number : ℤ} (hn : Nr.ofInt number = .close) (a : Args) {m : Machine} (w : W)
    {file : Handle} (h : m.LastOf a.a0 file) :
    ((dispatch number a : Program sig ε Outcome).run (exec x) (m, w)).1 = .ok (.value 0) := by
  have hclose : (m.counted.close a.a0).1 = .ok (some file) := Machine.close_last h
  have hhandle : handle number a = Sys.close a := by
    unfold handle
    rw [hn]
  have hrun : ((Sys.close a).run (exec x) (m.counted, w)).1 = .ok 0 := by
    unfold Sys.close
    simp only [act, Program.call_bind, Program.ret_bind, Program.run_call, exec_act, Act.exec, hclose]
    rfl
  rw [run_dispatch, hhandle, hrun, conclude_ok]

/-- `close` reports what the store said exactly when the store had nothing to
say but that all is well. -/
theorem close_reports_iff {number : ℤ} (hn : Nr.ofInt number = .close) (a : Args) (m : Machine) (w : W)
    (file : Handle) (h : m.LastOf a.a0 file) :
    Reports ((dispatch number a : Program sig ε Outcome).run (exec x) (m, w)).1
        (x.file file .close w).1 ↔ (x.file file .close w).1 = .ok () := by
  rw [dispatch_close x hn a w h]
  constructor
  · intro hr
    exact hr.success rfl
  · intro hok
    rw [hok]
    exact ⟨fun _ => rfl, fun e _ he => (by cases he), fun he => (by cases he)⟩

end

/-- A file that its store cannot commit when it is closed. -/
def Env.lossyFile : Env (List GuestRun) := .oneFile [] fun call => match call with
  | .close => .error .io
  | _ => .error .badf

/-- A process whose only descriptor is for that file. -/
def Machine.holdingFile : Machine where
  ctx := { (default : Ctx) with task := .new 1 ⟨[some ⟨0, false⟩]⟩ }
  shared := { (Config.bare []).shared 0 with
    descs := ((Slab.new.insert (.new (.file 0 0 false) root 0) 1).map Prod.snd).getD .new }
  inst := default

theorem close_reports_iff_lossy :
    Reports ((dispatch 57 ⟨0, 0, 0, 0, 0, 0⟩ : Program sig Stop Outcome).run (exec Env.lossyFile)
        (Machine.holdingFile, [])).1 (Env.lossyFile.file 0 .close []).1 ↔
      (Env.lossyFile.file 0 .close []).1 = .ok () :=
  close_reports_iff Env.lossyFile rfl ⟨0, 0, 0, 0, 0, 0⟩ Machine.holdingFile [] 0
    ⟨⟨0, false⟩, .new (.file 0 0 false) root 0, 0, rfl, rfl, rfl, by decide⟩

/-- Closing it is reported as a success. -/
theorem close_hides_error : ∃ (k : Kernel) (w : List GuestRun) (p : Proc),
    Reached Env.lossyFile (fun _ _ => True) k w ∧ k.procs[0]? = some p ∧
      (k.machineOf p).LastOf 3 0 ∧ (Env.lossyFile.file 0 .close w).1 = .error .io ∧
      ¬ Reports ((dispatch 57 ⟨3, 0, 0, 0, 0, 0⟩ : Program sig Stop Outcome).run (exec Env.lossyFile)
        (k.machineOf p, w)).1 (Env.lossyFile.file 0 .close w).1 := by
  have hopen : Config.oneMount.drive Env.lossyFile [⟨[.syscall 56 0, .setjmp 0], none⟩] 2
      [⟨some 0, none⟩] = some (_, _) := rfl
  refine ⟨_, _, _, .between _ _ (between_drive hopen), rfl, ⟨_, _, 0, rfl, rfl, rfl, by decide⟩, rfl,
    fun h => ?_⟩
  have := h.success rfl
  cases this

end Wasmux
