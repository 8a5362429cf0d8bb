import NckuOs.Lib.Refinement
import NckuOs.Osfs.Reachable

/-!
# What osfs is for: a volume of named files

A volume is a list of files, each with its bytes, beside two numbers: the next inode
number and how many blocks are free.  It has no bitmaps, no inode table and no extents,
and nothing in it says where a file is stored.  Its operations say what a caller of
`osfs` sees.
-/

namespace NckuOs.Osfs

open NckuOs.Transition

/-- One file, with what its inode says and what its blocks hold. -/
structure VolumeFile where
  name : List UInt8
  ino : Nat
  mode : Nat
  owner : Cred
  view : FileView

structure Volume where
  nextIno : Nat
  freeBlocks : Nat
  files : List VolumeFile

/-- Where a transfer of `len` bytes at `q` stops. -/
def stopOf (room q len : Nat) (buf : UserBuf) : Option Nat :=
  (List.range len).find? fun j => decide (ChunkStart q len j ∧ Stops room q len buf j)

theorem stopOf_eq_none_iff {room q len : Nat} {buf : UserBuf} :
    stopOf room q len buf = none ↔ Passes room q len buf := by
  rw [stopOf, List.find?_eq_none]
  constructor
  · intro none j start stops
    apply none j (List.mem_range.mpr start.1)
    exact decide_eq_true ⟨start, stops⟩
  · intro passes j _ found
    rcases of_decide_eq_true found with ⟨start, stops⟩
    exact passes j start stops

theorem stopOf_of_stopsAt {room q len j : Nat} {buf : UserBuf}
    (stopsAt : StopsAt room q len buf j) : stopOf room q len buf = some j := by
  cases found : stopOf room q len buf with
  | none => exact absurd (stopOf_eq_none_iff.mp found) stopsAt.not_passes
  | some k =>
      have here := found
      rw [stopOf, List.find?_range_eq_some] at here
      rcases here with ⟨isStop, _, first⟩
      rcases of_decide_eq_true isStop with ⟨start, stops⟩
      have atK : StopsAt room q len buf k := by
        refine ⟨start, stops, ?_⟩
        intro i before startsHere stopsHere
        have not := first i before
        rw [Bool.not_eq_true'] at not
        exact of_decide_eq_false not ⟨startsHere, stopsHere⟩
      rw [stopsAt.unique atK]

namespace FileView

/-- A file that was just created. -/
def empty : FileView :=
  ⟨0, 0, fun _ => 0⟩

/-- Read at `pos`: the value returned and the bytes delivered. -/
def read (view : FileView) (buf : UserBuf) (len pos : Nat) : Except Errno Nat × List UInt8 :=
  if view.size ≤ pos then (.ok 0, [])
  else
    match stopOf view.blocks pos (view.readLen len pos) buf with
    | none => (.ok (view.readLen len pos), view.slice pos (view.readLen len pos))
    | some j =>
        (.error (readErrno view.blocks pos j),
          view.slice pos (deliveredLen view.blocks pos buf j))

/-- Write at `pos` in a file that can come to have `room` blocks. -/
def write (view : FileView) (room : Nat) (buf : UserBuf) (len pos : Nat) :
    Except Errno Nat × FileView :=
  if 0 < len ∧ view.blocks < filePos pos / 1024 then (.error .EINVAL, view)
  else
    match stopOf room (filePos pos) len buf with
    | none => (.ok len, (view.store (filePos pos) len buf.byte).grow (pos + len))
    | some j =>
        (.error (stopErrno room (filePos pos) j),
          view.store (filePos pos) (storedLen room (filePos pos) len j) (storedByte buf j))

end FileView

namespace Volume

/-- The volume of a fresh mount: number 1 is the root's. -/
def fresh : Volume :=
  ⟨rootInode + 1, dataBlockCount, []⟩

/-- The directory takes its block when nothing has been taken yet. -/
def withDir (volume : Volume) : Volume :=
  if volume.freeBlocks = dataBlockCount then
    { volume with freeBlocks := dataBlockCount - 1 }
  else volume

/-- Create a file in a volume whose directory has its block. -/
def createIn (volume : Volume) (dentry : QStr) (mode : Nat) (cred : Cred) (newInode : Bool) :
    Except Errno Nat × Volume :=
  if inodeCount ≤ volume.nextIno ∨ volume.freeBlocks = 0 then (.error .ENOSPC, volume)
  -- The number is gone although no file has it.
  else if newInode = false then
    (.error .ENOMEM, { volume with nextIno := volume.nextIno + 1 })
  else if maxDirEntries ≤ volume.files.length then (.error .ENOSPC, volume)
  else if dentry.name ∈ volume.files.map VolumeFile.name then (.error .EEXIST, volume)
  else
    (.ok volume.nextIno,
      { nextIno := volume.nextIno + 1
        freeBlocks := volume.freeBlocks - 1
        files := volume.files ++ [⟨dentry.name, volume.nextIno, mode, cred, .empty⟩] })

def create (volume : Volume) (dentry : QStr) (mode : Nat) (cred : Cred) (newInode : Bool) :
    Except Errno Nat × Volume :=
  if maxFilenameLen ≤ dentry.len then (.error .ENAMETOOLONG, volume)
  else volume.withDir.createIn dentry mode cred newInode

def lookup (volume : Volume) (dentry : QStr) (newInode : Bool) : Except Errno (Option Inode) :=
  match volume.files.find? fun file => file.name = dentry.name with
  | none => .ok none
  | some file =>
      if newInode then
        .ok (some
          { iIno := file.ino
            iMode := file.mode
            iUid := file.owner.uid
            iGid := file.owner.gid
            iNlink := 1
            iPrivate := some file.ino })
      else .error .ENOMEM

/-- The file with an inode number. -/
def find (volume : Volume) (ino : Nat) : Option VolumeFile :=
  volume.files.find? fun file => file.ino = ino

/-- Give a file another content. -/
def setView (volume : Volume) (ino : Nat) (view : FileView) : Volume :=
  { volume with
    files := volume.files.map fun file => if file.ino = ino then { file with view } else file }

/-- No file with that number is open. -/
def read (volume : Volume) (ino : Nat) (buf : UserBuf) (len pos : Nat) :
    Except Errno Nat × List UInt8 :=
  match volume.find ino with
  | none => (.error .ENOENT, [])
  | some file => file.view.read buf len pos

def write (volume : Volume) (ino : Nat) (buf : UserBuf) (len pos : Nat) :
    Except Errno Nat × Volume :=
  match volume.find ino with
  | none => (.error .ENOENT, volume)
  | some file =>
      let wrote := file.view.write (file.view.blocks + volume.freeBlocks) buf len pos
      (wrote.1,
        { volume.setView ino wrote.2 with
          freeBlocks := volume.freeBlocks + file.view.blocks - wrote.2.blocks })

end Volume

/-! ## The machine -/

/-- A call with what the environment chooses. -/
inductive Call
  | create (dentry : QStr) (mode : Nat) (cred : Cred) (newInode : Bool)
  | lookup (dentry : QStr) (newInode : Bool)
  | read (ino : Nat) (buf : UserBuf) (len pos : Nat)
  | write (ino : Nat) (buf : UserBuf) (len pos : Nat)

/-- What a call returns. -/
inductive Reply
  | create (ret : Except Errno Nat)
  | lookup (ret : Except Errno (Option Inode))
  | read (ret : Except Errno Nat) (out : List UInt8)
  | write (ret : Except Errno Nat)
deriving DecidableEq

def Event.call : Event → Call
  | .create dentry mode cred newInode _ => .create dentry mode cred newInode
  | .lookup dentry newInode _ => .lookup dentry newInode
  | .read ino buf len pos _ _ => .read ino buf len pos
  | .write ino buf len pos _ => .write ino buf len pos

def Event.reply : Event → Reply
  | .create _ _ _ _ ret => .create ret
  | .lookup _ _ ret => .lookup ret
  | .read _ _ _ _ ret out => .read ret out
  | .write _ _ _ _ ret => .write ret

/-- A call and its reply are the whole event. -/
theorem Event.eq_of_call_reply {event event' : Event} (call : event.call = event'.call)
    (reply : event.reply = event'.reply) : event = event' := by
  cases event <;> cases event' <;> simp_all [Event.call, Event.reply]

def Volume.step (volume : Volume) : Call → Reply × Volume
  | .create dentry mode cred newInode =>
      let created := volume.create dentry mode cred newInode
      (.create created.1, created.2)
  | .lookup dentry newInode => (.lookup (volume.lookup dentry newInode), volume)
  | .read ino buf len pos =>
      let delivered := volume.read ino buf len pos
      (.read delivered.1 delivered.2, volume)
  | .write ino buf len pos =>
      let wrote := volume.write ino buf len pos
      (.write wrote.1, wrote.2)

def volumeMachine : Machine Volume Call Reply where
  start := .fresh
  step := Volume.step

end NckuOs.Osfs
