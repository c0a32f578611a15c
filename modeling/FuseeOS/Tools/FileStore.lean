import FuseeOS.Tools.MkVolume

/-!
# A store of files

What `mkvolume` makes of a volume, without its bytes: files are lists of bytes, and pages are handed out
one after the other, as many as it takes.

* `FileStore.append`   appends to a file, a page at a time;
* `FileStore.create`   a new file.
-/

namespace FuseeOS

/-- what a page of a file is for -/
inductive Slot where
  | inode
  | data (i : Nat)
  | indirect
deriving DecidableEq, Repr

/-- a file with the pages of its data, in order, and the page of its indirect slots (0: there is none) -/
structure StoredFile where
  content : List UInt8
  data : List Nat
  indirect : Nat
deriving DecidableEq, Repr

/-- a file as it is created -/
def StoredFile.empty : StoredFile := ⟨[], [], 0⟩

/-- `owner` is the file that a page belongs to, and what for -/
structure FileStore where
  next : Nat
  file : Nat → Option StoredFile
  owner : Nat → Option (Nat × Slot)

/-- how a step of the store can stop -/
inductive StoreStop where
  | tooLarge (store : FileStore)
  | undefined
  /-- an inode is opened that is not one of a file -/
  | stray

abbrev StoreOutcome (α : Type) : Type := Except StoreStop (α × FileStore)

namespace FileStore

/-- hands out the page `p` -/
def take (a : FileStore) (p f : Nat) (slot : Slot) : FileStore :=
  { a with next := p, owner := Function.update a.owner p (some (f, slot)) }

def set (a : FileStore) (f : Nat) (s : StoredFile) : FileStore :=
  { a with file := Function.update a.file f (some s) }

/-- a new file -/
def create (a : FileStore) : Nat × FileStore :=
  (nextPage a.next, (a.take (nextPage a.next) (nextPage a.next) .inode).set (nextPage a.next) .empty)

/-- the page of the indirect slots, which comes before the 17th page -/
def withIndirect (a : FileStore) (f : Nat) (s : StoredFile) : StoredFile × FileStore :=
  if 16 ≤ s.data.length ∧ s.indirect = 0 then
    let s := { s with indirect := nextPage a.next }
    (s, (a.take (nextPage a.next) f .indirect).set f s)
  else (s, a)

/-- one more page of data -/
def withPage (a : FileStore) (f : Nat) (s : StoredFile) : StoredFile × FileStore :=
  let t := { s with data := s.data ++ [nextPage a.next] }
  (t, (a.take (nextPage a.next) f (.data s.data.length)).set f t)

def grow (a : FileStore) (f : Nat) (s : StoredFile) : StoredFile × FileStore :=
  (a.withIndirect f s).2.withPage f (a.withIndirect f s).1

/-- the file with room for one more byte -/
def endPage (a : FileStore) (f : Nat) (s : StoredFile) : StoreOutcome StoredFile :=
  if s.content.length < 4096 * s.data.length then .ok (s, a)
  else if s.data.length < 528 then .ok (a.grow f s)
  else .error (.tooLarge a)

/-- appends bytes that are for one page -/
def appendChunk (a : FileStore) (f : Nat) (s : StoredFile) (l : List UInt8) : StoreOutcome StoredFile :=
  (a.endPage f s).bind fun (s, a) =>
    let s := { s with content := s.content ++ l }
    .ok (s, a.set f s)

/-- appends to the file `f`, which is `s` so far -/
def append (a : FileStore) (f : Nat) (s : StoredFile) (l : List UInt8) : StoreOutcome StoredFile :=
  if _h : l = [] then .ok (s, a)
  else
    let tmp := min (4096 - s.content.length % 4096) l.length
    (a.appendChunk f s (l.take tmp)).bind fun (s, a) => a.append f s (l.drop tmp)
termination_by l.length
decreasing_by
  have hpos : 0 < l.length := List.length_pos_iff.mpr _h
  rw [List.length_drop]
  omega

section
variable (a : FileStore) (p f g : Nat) (slot : Slot) (s : StoredFile)

theorem set_next : (a.set f s).next = a.next := rfl
theorem set_owner : (a.set f s).owner = a.owner := rfl
theorem set_self : (a.set f s).file f = some s := Function.update_self ..
theorem take_next : (a.take p f slot).next = p := rfl
theorem take_file : (a.take p f slot).file = a.file := rfl
theorem take_self : (a.take p f slot).owner p = some (f, slot) := Function.update_self ..

variable {p f g} in
theorem set_ne (h : g ≠ f) : (a.set f s).file g = a.file g := Function.update_of_ne h ..

variable {p f g} in
theorem take_ne {q : Nat} (h : q ≠ p) : (a.take p f slot).owner q = a.owner q := Function.update_of_ne h ..

end

end FileStore

end FuseeOS
