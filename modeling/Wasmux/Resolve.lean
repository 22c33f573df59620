import Wasmux.Machine

/-!
# Name resolution against the mounts

The part of the resolver that asks mounted filesystems. Components are taken
left to right; a symlink splices its target in and the walk starts again, at
most `maxHops` times.
-/

set_option autoImplicit false

namespace Wasmux
open Effects

inductive Fault where
  | errno (e : Errno)
  | block
  | exit (status : ℤ)
  | exec
  deriving DecidableEq

abbrev Handler (α : Type) := Program sig Fault α

section
variable {ε : Type}

@[simp] def act (a : Act) : Program sig ε a.Ans := .call (Op.act a) .ret
@[simp] def env (c : EnvCall) : Program sig ε c.Ans := .call (Op.env c) .ret
@[simp] def view : Program sig ε View := act .view

end

namespace Resolver

/-- The target of a symlink at `guest`, virtual or from a mount, if it is one.
Programs and devices are never symlinks, and the mount is not probed there. -/
def symlinkTarget (v : View) (guest : Text) : Program sig Errno (Option Text) :=
  match virtualLink v.who guest with
  | some target => .ret (some target)
  | none =>
    if (v.overlay.program guest).isSome ∨ (deviceOf guest).isSome then .ret none
    else match v.mounts.find guest with
      | none => .ret none
      | some (mount, rel) => do
        let links ← env (.hasSymlinks mount)
        if links then
          match ← env (.vfs mount (.stat rel false)) with
          | .ok stat =>
            if stat.fileType = .symlink then
              match ← env (.vfs mount (.readlink rel)) with
              | .ok target => .ret (some target)
              | .error e => if e = .again then .fail .again else .ret none
            else .ret none
          | .error e => if e = .again then .fail .again else .ret none
        else .ret none

/-- Classify without any symlink following. A directory the kernel invents
only shadows a mount that has no directory there. -/
def classifyFinal (v : View) (guest : Text) : Program sig Errno Node :=
  match v.overlay.program guest with
  | some id => .ret (.program id guest)
  | none => match deviceOf guest with
    | some device => .ret (.device device)
    | none => match procNode v.who guest with
      | some node => .ret node
      | none => match v.mounts.find guest with
        | some (mount, rel) =>
          if guest ≠ root ∧ v.overlay.isDir guest then do
            match ← env (.vfs mount (.stat rel true)) with
            | .ok stat =>
              if stat.fileType = .dir then .ret (.mounted mount rel guest)
              else .ret (.virtualDir guest)
            | .error e => if e = .again then .fail .again else .ret (.virtualDir guest)
          else .ret (.mounted mount rel guest)
        | none =>
          if v.overlay.isDir guest ∨ v.mounts.childrenOf guest ≠ [] then .ret (.virtualDir guest)
          else .fail .noent

/-- One walk over the components, with `before` already behind it. -/
def walkFrom (v : View) (follow : Bool) (restart : List Text → Program sig Errno Node) :
    List Text → List Text → Program sig Errno Node
  | before, [] => classifyFinal v (join before)
  | before, part :: rest =>
    let here := join (before ++ [part])
    if rest ≠ [] ∨ follow then do
      match ← symlinkTarget v here with
      | some target => restart (normalize (join before) target ++ rest)
      | none => walkFrom v follow restart (before ++ [part]) rest
    else match virtualLink v.who here with
      | some target => .ret (.virtualLink target)
      | none => walkFrom v follow restart (before ++ [part]) rest

def walk (v : View) (follow : Bool) : ℕ → List Text → Program sig Errno Node
  | 0, parts => walkFrom v follow (fun _ => .fail .loop) [] parts
  | hops + 1, parts => walkFrom v follow (walk v follow hops) [] parts

def resolve (v : View) (base path : Text) (follow : Bool) : Program sig Errno Node :=
  if Mem.maxStr < path.length then .fail .nametoolong
  else walk v follow maxHops (normalize base path)

end Resolver

def fail {α : Type} (e : Errno) : Handler α := .fail (.errno e)

def lift {α : Type} : Except Errno α → Handler α
  | .ok a => .ret a
  | .error e => fail e

def vfsFault {α : Type} (e : Errno) : Handler α :=
  if e = .again then do
    act .noteVfsPending
    .fail .block
  else fail e

def orVfsFault {α : Type} : Except Errno α → Handler α
  | .ok a => .ret a
  | .error e => vfsFault e

def vfsAsk (mount : ℕ) (call : VfsCall) : Handler call.Ans := do
  orVfsFault (← env (.vfs mount call))

def fileAsk (handle : Handle) (call : FileCall) : Handler call.Ans := do
  orVfsFault (← env (.file handle call))

section
variable {W α β : Type} (x : Env W)

@[simp] theorem lift_ok (a : α) : (lift (.ok a) : Handler α) = .ret a := rfl

@[simp] theorem lift_error (e : Errno) : (lift (.error e) : Handler α) = fail e := rfl

@[simp] theorem fail_bind (e : Errno) (f : α → Handler β) : (fail e >>= f) = fail e := rfl

@[simp] theorem run_fail (e : Errno) (s : Machine × W) :
    (fail e : Handler α).run (exec x) s = (.error (.errno e), s) := rfl

end

/-- Where a relative path starts from. -/
def resolveBase (v : View) (dirfd : ℤ) (path : Text) : Except Errno Text :=
  if startsWithSlash path then .ok root
  else if dirfd = Abi.atFdcwd then .ok v.task.cwd
  else match v.task.fds.get dirfd with
    | .error e => .error e
    | .ok entry => match v.descs.get entry.desc with
      | none => .error .badf
      | some desc => match desc.kind with
        | .dir _ _ => .ok desc.path
        | _ => .error .notdir

def resolve (dirfd : ℤ) (path : Text) (follow : Bool) : Handler Node := do
  let v ← view
  let base ← lift (resolveBase v dirfd path)
  orVfsFault (← (Resolver.resolve v base path follow).catching)

end Wasmux
