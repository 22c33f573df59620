import Wasmux.Launching

/-!
# What an `execve` is refused with

Error numbers are positive, and a call that fails answers the number negated.
The kernel's own numbers are such, and those of the host's filesystems are to
be. So the answer to an `execve` tells a refusal from a child's pid.
-/

set_option autoImplicit false

namespace Wasmux
open Effects Abi

/-- A number of those that there are: Linux's are positive. -/
def Errno.Proper (e : Errno) : Prop := 0 < e.code ∧ e.code ≤ i32Max

/-- The filesystems and files of the host fail with numbers of those. -/
structure Env.Proper {W : Type} (x : Env W) : Prop where
  vfs : ∀ i call w e, (x.vfs i call w).1 = .error e → e.Proper
  file : ∀ handle call w e, (x.file handle call w).1 = .error e → e.Proper

theorem Errno.Proper.asNeg_neg {e : Errno} (h : e.Proper) : e.asNeg < 0 := by
  obtain ⟨hpos, hle⟩ := h
  unfold i32Max at hle
  unfold Errno.asNeg asI32
  omega

/-- A call that is refused with such a number, or has to wait. -/
def Fault.proper : Fault → Prop
  | .errno e => e.Proper
  | .block => True
  | _ => False

section
variable {α W : Type} {x : Env W}

theorem proper_lift {r : Except Errno α} (h : ∀ e, r = .error e → e.Proper) :
    (lift r).Throws Fault.proper := by
  cases r with
  | ok a => trivial
  | error e => exact h e rfl

theorem proper_orVfsFault {r : Except Errno α} (h : ∀ e, r = .error e → e.Proper) :
    (orVfsFault r).Throws Fault.proper := by
  cases r with
  | ok a => trivial
  | error e =>
    simp only [orVfsFault, vfsFault]
    split
    · exact fun _ => trivial
    · exact h e rfl

theorem proper_vfsAsk (hx : x.Proper) (mount : ℕ) (call : VfsCall) :
    (vfsAsk mount call).Fails (exec x) Fault.proper := by
  rintro ⟨m, w⟩ f h
  refine (proper_orVfsFault fun e he => ?_).run_error (exec x) h
  simp only [exec_env, EnvCall.answer] at he
  split at he
  · exact hx.vfs _ _ _ _ he
  · cases he
    exact ⟨by decide, by decide⟩

theorem proper_fileAsk (hx : x.Proper) (handle : Handle) (call : FileCall) :
    (fileAsk handle call).Fails (exec x) Fault.proper := by
  rintro ⟨m, w⟩ f h
  refine (proper_orVfsFault fun e he => ?_).run_error (exec x) h
  exact hx.file _ _ _ _ he

theorem proper_cstr {m : Mem} {start : ℕ} {e : Errno} (h : m.cstr start = .error e) : e.Proper := by
  unfold Mem.cstr Mem.cstrBytes Mem.cstrBytesUpto at h
  split at h
  · cases h
    exact ⟨by decide, by decide⟩
  · split at h
    · cases h
    · cases h
      exact ⟨by decide, by decide⟩

theorem proper_cstrArrayFrom {m : Mem} (n p total : ℕ) (out : List Bytes) {e : Errno}
    (h : m.cstrArrayFrom n p total out = .error e) : e.Proper := by
  have hbig : Errno.toobig.Proper := ⟨by decide, by decide⟩
  have hfault : Errno.fault.Proper := ⟨by decide, by decide⟩
  induction n generalizing p total out with
  | zero =>
    cases h
    exact hbig
  | succ n ih =>
    unfold Mem.cstrArrayFrom at h
    cases hitem : m.u32 p with
    | error e' =>
      obtain rfl : e' = e := by simpa [hitem] using h
      unfold Mem.u32 Mem.bytes at hitem
      split at hitem
      · cases hitem
      · cases hitem
        exact hfault
    | ok item =>
      simp only [hitem] at h
      split at h
      · cases h
      · cases hs : m.cstrBytesUpto item Mem.maxArgStrlen with
        | error e' =>
          simp only [hs] at h
          unfold Mem.cstrBytesUpto at hs
          split at hs
          · cases hs
            cases h
            exact hfault
          · split at hs
            · cases hs
            · cases hs
              cases h
              exact hbig
        | ok s =>
          simp only [hs] at h
          split at h
          · cases h
            exact hbig
          split at h
          · cases h
            exact hbig
          split at h
          · cases h
            exact hfault
          · exact ih _ _ _ h

theorem proper_cstrArray {m : Mem} {start : ℕ} {e : Errno} (h : m.cstrArray start = .error e) : e.Proper := by
  unfold Mem.cstrArray at h
  split at h
  · cases h
  · exact proper_cstrArrayFrom _ _ _ _ h

theorem proper_get {t : FdTable} {fd : ℤ} {e : Errno} (h : t.get fd = .error e) : e.Proper := by
  unfold FdTable.get at h
  split at h
  · cases h
    exact ⟨by decide, by decide⟩
  · split at h
    · cases h
    · cases h
      exact ⟨by decide, by decide⟩

theorem proper_resolveBase {v : View} {dirfd : ℤ} {path : Text} {e : Errno}
    (h : resolveBase v dirfd path = .error e) :
    e.Proper := by
  unfold resolveBase at h
  split at h
  · cases h
  split at h
  · cases h
  split at h
  · rename_i hget
    cases h
    exact proper_get hget
  · split at h
    · cases h
      exact ⟨by decide, by decide⟩
    · split at h
      · cases h
      · cases h
        exact ⟨by decide, by decide⟩

namespace Resolver
variable (v : View)

theorem proper_again (e : Errno) (a : α) :
    (if e = .again then .fail .again else .ret a : Program sig Errno α).Throws Errno.Proper := by
  split
  · exact ⟨by decide, by decide⟩
  · trivial

theorem proper_symlinkTarget (guest : Text) : (symlinkTarget v guest).Throws Errno.Proper := by
  unfold symlinkTarget
  split
  · trivial
  split
  · trivial
  split
  · trivial
  intro links
  change (if links = true then _ else _ : Program sig Errno (Option Text)).Throws Errno.Proper
  split
  · rintro (e | stat)
    · exact proper_again e none
    · change (if stat.fileType = .symlink then _ else _ : Program sig Errno (Option Text)).Throws Errno.Proper
      split
      · rintro (e | target)
        · exact proper_again e none
        · trivial
      · trivial
  · trivial

theorem proper_classifyFinal (guest : Text) : (classifyFinal v guest).Throws Errno.Proper := by
  unfold classifyFinal
  split
  · trivial
  split
  · trivial
  split
  · trivial
  split
  · split
    · rintro (e | stat)
      · exact proper_again e _
      · change (if stat.fileType = .dir then _ else _ : Program sig Errno Node).Throws Errno.Proper
        split <;> trivial
    · trivial
  · split
    · trivial
    · exact ⟨by decide, by decide⟩

theorem proper_walkFrom (follow : Bool) {restart : List Text → Program sig Errno Node}
    (hrestart : ∀ parts, (restart parts).Throws Errno.Proper) (before parts : List Text) :
    (walkFrom v follow restart before parts).Throws Errno.Proper := by
  induction parts generalizing before with
  | nil => exact proper_classifyFinal v _
  | cons part rest ih =>
    unfold walkFrom
    dsimp only
    split
    · apply Program.throws_bind (proper_symlinkTarget v _)
      rintro (_ | target)
      · exact ih _
      · exact hrestart _
    · split
      · trivial
      · exact ih _

theorem proper_walk (follow : Bool) (hops : ℕ) (parts : List Text) :
    (walk v follow hops parts).Throws Errno.Proper := by
  induction hops generalizing parts with
  | zero =>
    apply proper_walkFrom v follow
    exact fun _ => ⟨by decide, by decide⟩
  | succ hops ih => exact proper_walkFrom v follow ih _ _

end Resolver

theorem proper_resolve (dirfd : ℤ) (path : Text) (follow : Bool) :
    (resolve dirfd path follow).Throws Fault.proper := by
  refine Program.throws_bind (p := view) (fun _ => trivial) fun v => ?_
  refine Program.throws_bind (proper_lift fun e => proper_resolveBase) fun base => ?_
  have hwalk : (Resolver.resolve v base path follow).Throws Errno.Proper := by
    unfold Resolver.resolve
    split
    · exact ⟨by decide, by decide⟩
    · exact Resolver.proper_walk v follow _ _
  generalize Resolver.resolve v base path follow = p at hwalk
  induction p with
  | ret node => trivial
  | fail e => exact proper_orVfsFault fun _ h => Except.error.inj h ▸ hwalk
  | call o k ih => exact fun a => ih a (hwalk a)

namespace Sys

theorem proper_scriptHead (hx : x.Proper) (mount : ℕ) (rel : Text) :
    (scriptHead mount rel).Fails (exec x) Fault.proper := by
  refine Program.fails_bind (proper_vfsAsk hx _ _) fun file =>
    Program.fails_bind (proper_fileAsk hx _ _) fun _ => ?_
  exact Program.Throws.fails fun _ => trivial

theorem proper_mountedHead (hx : x.Proper) (mount : ℕ) (rel : Text) :
    (mountedHead mount rel).Fails (exec x) Fault.proper := by
  refine Program.fails_bind
    (p := env (.vfs mount (.stat rel true))) (Program.Throws.fails fun _ => trivial) ?_
  rintro (e | stat)
  · exact proper_scriptHead hx mount rel
  · dsimp only
    split
    · exact Program.Throws.fails ⟨by decide, by decide⟩
    · exact proper_scriptHead hx mount rel

theorem proper_interpreter (path : Text) (argv envp : List Bytes) (head : Bytes) :
    (interpreter path argv envp head).Throws Fault.proper := by
  unfold interpreter
  split
  · exact ⟨by decide, by decide⟩
  · refine Program.throws_bind (proper_resolve _ _ _) fun node => ?_
    cases node with
    | program => trivial
    | _ => exact ⟨by decide, by decide⟩

theorem proper_sought (hx : x.Proper) (a : Args) : (sought a).Fails (exec x) Fault.proper := by
  refine Program.fails_bind (p := view) (Program.Throws.fails fun _ => trivial) fun v => ?_
  refine Program.fails_bind (proper_lift fun e => proper_cstr).fails fun path => ?_
  refine Program.fails_bind (proper_lift fun e => proper_cstrArray).fails fun argv => ?_
  refine Program.fails_bind (proper_lift fun e => proper_cstrArray).fails fun envp => ?_
  refine Program.fails_bind (proper_resolve _ _ _).fails fun node => ?_
  cases node with
  | mounted mount rel guest =>
    exact Program.fails_bind (proper_mountedHead hx mount rel) fun head =>
      (proper_interpreter path argv envp head).fails
  | program => exact Program.Throws.fails trivial
  | _ => exact Program.Throws.fails ⟨by decide, by decide⟩

end Sys

end

end Wasmux
