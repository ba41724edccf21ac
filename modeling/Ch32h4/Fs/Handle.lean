import Ch32h4.Fs.Seek
import Ch32h4.Ledger
import Ch32h4.Traced
import Ch32h4.TransitionSystem
import Mathlib.Data.Fintype.Basic
import Mathlib.Logic.Function.Basic

/-!
# The handles of LittleFS files

Translation of `LittleFSFileImpl`, of `LittleFSImpl::open` and of the `File` of the sketch, with each
call that passes an `lfs_file_t` to the library.  A `File` is a shared pointer: its copies share one
`LittleFSFileImpl`, which goes when the last of them does.

What the library answers comes with each action.  The objects are numbered as they are made, and
their memory stays what it was, so that a call through a handle that was closed would be seen.
-/

namespace Ch32h4.Fs.Handle

open Traced

/-! ### Modes -/

/-- `OpenMode`, by its bits. -/
structure OpenMode where
  create : Bool := false
  append : Bool := false
  truncate : Bool := false
  deriving DecidableEq

/-- `AccessMode`, by its bits. -/
structure AccessMode where
  read : Bool := false
  write : Bool := false
  deriving DecidableEq

/-- `sflags`: the second character may only be a plus, and what follows it is not read. -/
def sflags (mode : List Char) : Option (OpenMode × AccessMode) :=
  let first : Option (OpenMode × AccessMode) :=
    match mode.head? with
    | some 'r' => some ({}, { read := true })
    | some 'w' => some ({ create := true, truncate := true }, { write := true })
    | some 'a' => some ({ create := true, append := true }, { write := true })
    | _ => none
  first.bind fun (om, am) =>
    match mode.tail.head? with
    | some '+' => some (om, { read := true, write := true })
    | none => some (om, am)
    | some _ => none

/-- The flags of `lfs_file_open`. -/
def openFlags (om : OpenMode) (am : AccessMode) : ℕ :=
  (if am.read && am.write then 3 else if am.write then 2 else 1) |||
  (if om.create then 0x0100 else 0) ||| (if om.truncate then 0x0400 else 0) |||
  (if om.append then 0x0800 else 0)

/-- `fixPath`: of the slashes at the beginning, one stays. -/
def fixPath : List Char → List Char
  | '/' :: '/' :: rest => fixPath ('/' :: rest)
  | path => path

/-! ### `LittleFSFileImpl` -/

/-- A call of the library that is passed a handle. -/
inductive LfsCall where
  /-- With what it answers. -/
  | openFile (h : ℕ) (path : List Char) (flags : ℕ) (err : ℤ)
  | write (h : ℕ) (buf : List UInt8)
  | read (h size : ℕ)
  | sync (h : ℕ)
  | seek (h pos : ℕ) (whence : SeekMode)
  | tell (h : ℕ)
  | size (h : ℕ)
  | truncate (h size : ℕ)
  | close (h : ℕ)
  deriving DecidableEq

/-- A `LittleFSFileImpl`; its `_file` is named by the number of the object. -/
structure FileImpl where
  file : ℕ
  opened : Bool
  writable : Bool

namespace FileImpl

variable (f : FileImpl)

def write (buf : List UInt8) (n : ℤ) : Traced LfsCall ℕ :=
  if !f.opened || !f.writable then pure 0
  else do
    note (.write f.file buf)
    return if n < 0 then 0 else n.toNat

def read (size : ℕ) (n : ℤ) : Traced LfsCall ℤ :=
  if !f.opened then pure (-1)
  else do
    note (.read f.file size)
    return if n < 0 then -1 else n

def flush : Traced LfsCall Unit :=
  if f.opened then note (.sync f.file) else pure ()

def seek (pos : ℕ) (mode : SeekMode) (n : ℤ) : Traced LfsCall Bool :=
  if !f.opened then pure false
  else do
    note (.seek f.file pos mode)
    return 0 ≤ n

def position (p : ℤ) : Traced LfsCall ℕ :=
  if !f.opened then pure 0
  else do
    note (.tell f.file)
    return if p < 0 then 0 else p.toNat

def size (n : ℤ) : Traced LfsCall ℕ :=
  if !f.opened then pure 0
  else do
    note (.size f.file)
    return if n < 0 then 0 else n.toNat

def truncate (size : ℕ) (err : ℤ) : Traced LfsCall Bool :=
  if !f.opened || !f.writable then pure false
  else do
    note (.truncate f.file size)
    return err = 0

/-- `close`, and all that the destructor does. -/
def close : Traced LfsCall FileImpl :=
  if f.opened then do
    note (.close f.file)
    return { f with opened := false }
  else pure f

end FileImpl

/-! ### `File` -/

/-- What a sketch does with a `File` that leaves it open, with the answers of the library. -/
inductive Use where
  | write (buf : List UInt8) (n : ℤ)
  | read (size : ℕ) (n : ℤ)
  /-- `peek`, with the answers to its three calls. -/
  | peek (p n m : ℤ)
  | available (n p : ℤ)
  | flush
  | seek (pos : ℕ) (mode : SeekMode) (n : ℤ)
  | position (p : ℤ)
  | size (n : ℤ)
  | truncate (size : ℕ) (err : ℤ)

/-- The calls of the library for it. -/
def Use.calls (f : FileImpl) : Use → List LfsCall
  | .write buf n => (f.write buf n).events
  | .read len n => (f.read len n).events
  | .peek p n m => Traced.events do
      let curPos ← f.position p
      let result ← f.read 1 n
      let _ ← f.seek curPos .seekSet m
      return result
  | .available n p => Traced.events do
      let total ← f.size n
      let pos ← f.position p
      return (total - pos : ℤ)
  | .flush => f.flush.events
  | .seek pos mode n => (f.seek pos mode n).events
  | .position p => (f.position p).events
  | .size n => (f.size n).events
  | .truncate len err => (f.truncate len err).events

/-- The file system, and the `File`s of the sketch. -/
structure System (κ : Type*) where
  mounted : Bool
  /-- Number of objects that have been made. -/
  made : ℕ
  impls : ℕ → FileImpl
  /-- `_p` of each `File`; it is null where there is no `File`, too. -/
  files : κ → Option ℕ
  /-- The calls so far. -/
  calls : List LfsCall

namespace System

section

variable {κ : Type*} (s : System κ)

def closeImpl (i : ℕ) : System κ :=
  { s with
    impls := Function.update s.impls i (s.impls i).close.value
    calls := s.calls ++ (s.impls i).close.events }

/-- The sketch does something with the file of an object. -/
def useImpl (i : ℕ) (u : Use) : System κ := { s with calls := s.calls ++ u.calls (s.impls i) }

/-- What a `File` does with its file, if it is open. -/
def use (x : κ) (u : Use) : System κ :=
  match s.files x with
  | none => s
  | some i => s.useImpl i u

variable [DecidableEq κ] [Fintype κ]

/-- A pointer to an object is gone; if it was the last one, the object is destroyed. -/
def unref : Option ℕ → System κ
  | none => s
  | some i => if ∃ x, s.files x = some i then s else s.closeImpl i

/-- The assignment of a pointer. -/
def assign (x : κ) (p : Option ℕ) : System κ :=
  { s with files := Function.update s.files x p }.unref (s.files x)

/-- `File::close`. -/
def close (x : κ) : System κ :=
  match s.files x with
  | none => s
  | some i => (s.closeImpl i).assign x none

/-- The object is made, and `lfs_file_open` is called with its handle. -/
def make (path : List Char) (flags : ℕ) (writable : Bool) (err : ℤ) : System κ :=
  { s with
    made := s.made + 1
    impls := Function.update s.impls s.made ⟨s.made, true, writable⟩
    calls := s.calls ++ [.openFile s.made path flags err] }

/-- `LittleFSImpl::open`.  Where `lfs_file_open` fails the object is closed, and destroyed as the
function returns. -/
def openImpl (path : Option (List Char)) (om : OpenMode) (am : AccessMode) (err : ℤ) :
    System κ × Option ℕ :=
  match path with
  | none => (s, none)
  | some path =>
    if s.mounted then
      let t := s.make (fixPath path) (openFlags om am) am.write err
      if err ≠ 0 then ((t.closeImpl s.made).unref (some s.made), none) else (t, some s.made)
    else (s, none)

/-- `FS::open`. -/
def openFile (path : Option (List Char)) (mode : List Char) (err : ℤ) : System κ × Option ℕ :=
  match sflags mode with
  | none => (s, none)
  | some (om, am) => s.openImpl path om am err

end

end System

inductive Action (κ : Type*) where
  /-- A `File` is assigned the result of `LittleFS.open`; the last argument is the answer of
  `lfs_file_open`, if it is called. -/
  | openFile (x : κ) (path : Option (List Char)) (mode : List Char) (err : ℤ)
  /-- A `File` is assigned a copy of another. -/
  | copy (x y : κ)
  | use (x : κ) (u : Use)
  | close (x : κ)
  /-- A `File` is destroyed. -/
  | drop (x : κ)
  /-- `begin`, and whether a volume is mounted at its end. -/
  | beginFs (ok : Bool)
  | endFs

/-- Nothing is mounted, and no `File` is open. -/
def atRest (κ : Type*) : System κ where
  mounted := false
  made := 0
  impls := fun i => ⟨i, false, false⟩
  files := fun _ => none
  calls := []

variable {κ : Type*} [DecidableEq κ] [Fintype κ]

/-- One call of the sketch. -/
def System.after (s : System κ) : Action κ → System κ
  | .openFile x path mode err =>
    let r := s.openFile path mode err
    r.1.assign x r.2
  | .copy x y => s.assign x (s.files y)
  | .use x u => s.use x u
  | .close x => s.close x
  | .drop x => s.assign x none
  | .beginFs ok => { s with mounted := s.mounted || ok }
  | .endFs => { s with mounted := false }

variable (κ) in
def machine : Machine (System κ) (Action κ) where
  init s := s = atRest κ
  step s a := some (s.after a)

/-- The handles that a `close` of the sketch was about. -/
def closing (s : System κ) (closed : List ℕ) : Action κ → List ℕ
  | .close x => (s.files x).toList ++ closed
  | _ => closed

variable (κ) in
/-- The machine, with a note of the handles that the sketch has closed. -/
def noted : Machine (System κ × List ℕ) (Action κ) :=
  (machine κ).observed (fun _ => []) closing

/-! ### What is promised -/

/-- What a call does with the handle.  An `lfs_file_open` that fails leaves it as it was. -/
def LfsCall.entries : LfsCall → List (Entry ℕ)
  | .openFile h _ _ err => if err = 0 then [⟨.acquire, h⟩] else []
  | .write h _ | .read h _ | .sync h | .seek h _ _ | .tell h | .size h | .truncate h _ =>
    [⟨.use, h⟩]
  | .close h => [⟨.release, h⟩]

def System.ledger {κ : Type*} (s : System κ) : List (Entry ℕ) := s.calls.flatMap LfsCall.entries

/-- A handle is passed to the library between a successful `lfs_file_open` and its close, which
comes once: as soon as the sketch has closed the `File` or given up all its copies, if it was opened,
and never otherwise. -/
structure Disciplined (s : System κ × List ℕ) : Prop where
  lawful : Ledger.Lawful s.1.ledger
  once : ∀ h, s.1.ledger.count ⟨.release, h⟩ =
    if ⟨.acquire, h⟩ ∈ s.1.ledger ∧ (h ∈ s.2 ∨ ∀ x, s.1.files x ≠ some h) then 1 else 0

/-- **The condition**: if `lfs_file_open` is called, it succeeds. -/
def Opens (s : System κ) : Action κ → Prop
  | .openFile _ path mode err =>
    s.mounted = true → path.isSome = true → (sflags mode).isSome = true → err = 0
  | _ => True

instance (s : System κ) : (a : Action κ) → Decidable (Opens s a)
  | .openFile _ _ _ _ => inferInstanceAs (Decidable (_ → _ → _ → _))
  | .copy _ _ | .use _ _ | .close _ | .drop _ | .beginFs _ | .endFs =>
    inferInstanceAs (Decidable True)

end Ch32h4.Fs.Handle
