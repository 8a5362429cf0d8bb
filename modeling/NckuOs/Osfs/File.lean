import NckuOs.Osfs.Inode

/-!
# `file.c`: extent tables, reading and writing

A regular file's `i_block` is the block of its extent table: a header of two
words, the magic number and the count, followed by the extents.  The loops of
`osfs_extent_do_read` and `osfs_extent_do_write` recurse on the bytes that
remain; every pass moves at least one.
-/

namespace NckuOs.Osfs

open NckuOs.ByteMemory
open NckuOs.RunLength

/-- `osfs_get_extent_header`: the address of a file's table block. -/
def osfsGetExtentHeader (sb : SbInfo) (ino : Nat) : Nat :=
  blockAddr (sb.inodeTable ino).iBlock

/-- `hdr->magic`. -/
def hdrMagic (mem : Mem) (hdr : Nat) : Nat :=
  load32 mem hdr

/-- `hdr->count`. -/
def hdrCount (mem : Mem) (hdr : Nat) : Nat :=
  load32 mem (hdr + 4)

/-- Address of `ext[i]`, with `ext = osfs_get_extent_array(hdr)`. -/
def extentAddr (hdr i : Nat) : Nat :=
  hdr + sizeofExtentHeader + sizeofExtent * i

/-- `ext[i]`: `start`, then `len`. -/
def extentAt (mem : Mem) (hdr i : Nat) : Run :=
  ⟨load32 mem (extentAddr hdr i), load32 mem (extentAddr hdr i + 4)⟩

/-- `ext[0], …, ext[n - 1]`. -/
def loadExtents (mem : Mem) (hdr n : Nat) : List Run :=
  (List.range n).map (extentAt mem hdr)

/-- `osfs_extent_reset_header`. -/
def osfsExtentResetHeader (mem : Mem) (hdr : Nat) : Mem :=
  let cleared := store mem hdr blockSize fun _ => 0
  let marked := store32 cleared hdr osfsExtentMagic
  store32 marked (hdr + 4) 0

/-- `osfs_extent_total_blocks`. -/
def osfsExtentTotalBlocks (mem : Mem) (hdr : Nat) : Nat :=
  if hdrMagic mem hdr ≠ osfsExtentMagic then 0
  else if hdrCount mem hdr > osfsMaxExtents then 0
  else (loadExtents mem hdr (hdrCount mem hdr)).foldl (fun total ext => u32 (total + ext.len)) 0

/-- The loop of `osfs_extent_lookup_block` over the extents that are left, with
`idx` the index relative to the first of them. -/
def lookupBlockLoop : List Run → Nat → Except Errno Nat
  | [], _ => .error .ENOENT
  | ext :: rest, idx =>
      if idx < ext.len then .ok (u32 (ext.start + idx)) else lookupBlockLoop rest (idx - ext.len)

/-- `osfs_extent_lookup_block` as it is called, with `found` and `offset_in_ext`
both `NULL`; the result is what is stored through `phys_block`. -/
def osfsExtentLookupBlock (mem : Mem) (hdr logicalIdx : Nat) : Except Errno Nat :=
  if hdrMagic mem hdr ≠ osfsExtentMagic then .error .ENOENT
  else if hdrCount mem hdr > osfsMaxExtents then .error Errno.EIO
  else lookupBlockLoop (loadExtents mem hdr (hdrCount mem hdr)) logicalIdx

/-- `osfs_inode->i_blocks++`. -/
def bumpBlocks (sb : SbInfo) (ino : Nat) : SbInfo :=
  sb.setInode ino { sb.inodeTable ino with iBlocks := u32Inc (sb.inodeTable ino).iBlocks }

/-- `osfs_extent_append_block`; the result is what is stored through
`new_block`. -/
def osfsExtentAppendBlock (sb : SbInfo) (ino hdr : Nat) : Outcome Nat :=
  let count := hdrCount sb.dataBlocks hdr
  if count > osfsMaxExtents then .error .ENOSPC sb
  else
    match osfsAllocDataBlock sb with
    | .error e sb => .error e sb
    | .ok block sb =>
        let last := extentAt sb.dataBlocks hdr (count - 1)
        if count > 0 ∧ u32 (last.start + last.len) = block then
          let grown := store32 sb.dataBlocks (extentAddr hdr (count - 1) + 4) (u32Inc last.len)
          .ok block (bumpBlocks (sb.setData grown) ino)
        else if count ≥ osfsMaxExtents then .error .ENOSPC (osfsFreeDataBlock sb block)
        else
          let started := store32 sb.dataBlocks (extentAddr hdr count) block
          let measured := store32 started (extentAddr hdr count + 4) 1
          let counted := store32 measured (hdr + 4) (u32Inc count)
          .ok block (bumpBlocks (sb.setData counted) ino)

/-- The test of `osfs_extent_ensure_table` on a table block that is there. -/
def resetUnlessTable (sb : SbInfo) (hdr : Nat) : SbInfo :=
  if hdrMagic sb.dataBlocks hdr ≠ osfsExtentMagic ∨ hdrCount sb.dataBlocks hdr > osfsMaxExtents then
    sb.setData (osfsExtentResetHeader sb.dataBlocks hdr)
  else sb

/-- `osfs_extent_ensure_table`; the result is what is stored through `hdr_out`. -/
def osfsExtentEnsureTable (sb : SbInfo) (ino : Nat) : Outcome Nat :=
  if (sb.inodeTable ino).iBlocks = 0 ∨ (sb.inodeTable ino).iBlock = 0 then
    match osfsAllocDataBlock sb with
    | .error e sb => .error e sb
    | .ok block sb =>
        let sb := sb.setInode ino { sb.inodeTable ino with iBlock := block, iBlocks := 1 }
        .ok (osfsGetExtentHeader sb ino) (resetUnlessTable sb (osfsGetExtentHeader sb ino))
  else
    .ok (osfsGetExtentHeader sb ino) (resetUnlessTable sb (osfsGetExtentHeader sb ino))

/-! ## Positions and chunks -/

/-- `logical_block = pos / BLOCK_SIZE`, cut to 32 bits. -/
def logicalBlock (pos : Nat) : Nat :=
  u32 (pos / blockSize)

/-- `block_offset = pos % BLOCK_SIZE`. -/
def blockOffset (pos : Nat) : Nat :=
  pos % blockSize

/-- `min_t(size_t, remaining, BLOCK_SIZE - block_offset)`. -/
def chunkSize (remaining pos : Nat) : Nat :=
  min remaining (blockSize - blockOffset pos)

theorem chunkSize_pos {remaining pos : Nat} (positive : 0 < remaining) :
    0 < chunkSize remaining pos := by
  have inBlock : pos % 1024 < 1024 := Nat.mod_lt pos (by decide)
  simp only [chunkSize, blockOffset, blockSize]
  omega

theorem chunkSize_le (remaining pos : Nat) : chunkSize remaining pos ≤ remaining :=
  Nat.min_le_left _ _

/-- Where a chunk starts in the data area. -/
def chunkAddr (physBlock pos : Nat) : Nat :=
  blockAddr physBlock + blockOffset pos

/-- What a read or a write call leaves behind: the returned value, `*ppos`, the
bytes delivered to the user buffer and the file system. -/
structure IoResult where
  ret : Except Errno Nat
  ppos : Nat
  out : List UInt8
  sb : SbInfo

/-- The loop of `osfs_extent_do_read`: the return code with the final `pos`, and
the bytes delivered. -/
def doReadLoop (mem : Mem) (hdr : Nat) (buf : UserBuf) (remaining pos done : Nat)
    (out : List UInt8) : Except Errno (Nat × Nat) × List UInt8 :=
  if _ : 0 < remaining then
    match osfsExtentLookupBlock mem hdr (logicalBlock pos) with
    | .error _ => (.error Errno.EIO, out)
    | .ok physBlock =>
        let chunk := chunkSize remaining pos
        let copy := copyToUser mem (chunkAddr physBlock pos) buf done chunk
        if copy.1 ≠ 0 then (.error .EFAULT, out ++ copy.2)
        else doReadLoop mem hdr buf (remaining - chunk) (pos + chunk) (done + chunk) (out ++ copy.2)
  else (.ok (done, pos), out)
termination_by remaining
decreasing_by
  have moved : 0 < chunkSize remaining pos := chunkSize_pos (by assumption)
  omega

/-- `osfs_extent_do_read`. -/
def osfsExtentDoRead (sb : SbInfo) (inode : Inode) (buf : UserBuf) (len ppos : Nat) : IoResult :=
  match inode.iPrivate with
  | none => ⟨.error Errno.EIO, ppos, [], sb⟩
  | some ino =>
      let osfsInode := sb.inodeTable ino
      if osfsInode.iBlocks = 0 ∨ osfsInode.iBlock = 0 then ⟨.ok 0, ppos, [], sb⟩
      else
        let hdr := osfsGetExtentHeader sb ino
        if hdrMagic sb.dataBlocks hdr ≠ osfsExtentMagic then
          if osfsInode.iSize = 0 then
            ⟨.ok 0, ppos, [], sb.setData (osfsExtentResetHeader sb.dataBlocks hdr)⟩
          else ⟨.error .EOPNOTSUPP, ppos, [], sb⟩
        else if ppos ≥ osfsInode.iSize then ⟨.ok 0, ppos, [], sb⟩
        else
          let remaining := if ppos + len > osfsInode.iSize then osfsInode.iSize - ppos else len
          match doReadLoop sb.dataBlocks hdr buf remaining ppos 0 [] with
          | (.error e, out) => ⟨.error e, ppos, out, sb⟩
          | (.ok (done, pos), out) => ⟨.ok done, pos, out, sb⟩

/-- The block a chunk of a write goes to: looked up, or appended when it is the
next one.  The result is `phys_block` with the new `total_blocks`. -/
def writeBlock (sb : SbInfo) (ino hdr logical totalBlocks : Nat) : Outcome (Nat × Nat) :=
  match osfsExtentLookupBlock sb.dataBlocks hdr logical with
  | .ok physBlock => .ok (physBlock, totalBlocks) sb
  | .error _ =>
      if logical > totalBlocks then .error .EINVAL sb
      else
        match osfsExtentAppendBlock sb ino hdr with
        | .error e sb => .error e sb
        | .ok _ sb =>
            match osfsExtentLookupBlock sb.dataBlocks hdr logical with
            | .error e => .error e sb
            | .ok physBlock => .ok (physBlock, u32Inc totalBlocks) sb

/-- The loop of `osfs_extent_do_write`: the final `done` and `pos`. -/
def doWriteLoop (sb : SbInfo) (ino hdr : Nat) (buf : UserBuf) (remaining pos done : Nat)
    (totalBlocks : Nat) : Outcome (Nat × Nat) :=
  if _ : 0 < remaining then
    match writeBlock sb ino hdr (logicalBlock pos) totalBlocks with
    | .error e sb => .error e sb
    | .ok (physBlock, totalBlocks) sb =>
        let chunk := chunkSize remaining pos
        let copy := copyFromUser sb.dataBlocks (chunkAddr physBlock pos) buf done chunk
        if copy.1 ≠ 0 then .error .EFAULT (sb.setData copy.2)
        else
          doWriteLoop (sb.setData copy.2) ino hdr buf (remaining - chunk) (pos + chunk)
            (done + chunk) totalBlocks
  else .ok (done, pos) sb
termination_by remaining
decreasing_by
  have moved : 0 < chunkSize remaining pos := chunkSize_pos (by assumption)
  omega

/-- The end of a write at `pos`: `i_size` grows to `pos`, cut to 32 bits. -/
def growSize (sb : SbInfo) (ino pos : Nat) : SbInfo :=
  if pos > (sb.inodeTable ino).iSize then
    sb.setInode ino { sb.inodeTable ino with iSize := u32 pos }
  else sb

/-- `osfs_extent_do_write`. -/
def osfsExtentDoWrite (sb : SbInfo) (inode : Inode) (buf : UserBuf) (len ppos : Nat) : IoResult :=
  match inode.iPrivate with
  | none => ⟨.error Errno.EIO, ppos, [], sb⟩
  | some ino =>
      match osfsExtentEnsureTable sb ino with
      | .error e sb => ⟨.error e, ppos, [], sb⟩
      | .ok hdr sb =>
          match doWriteLoop sb ino hdr buf len ppos 0 (osfsExtentTotalBlocks sb.dataBlocks hdr) with
          | .error e sb => ⟨.error e, ppos, [], sb⟩
          | .ok (done, pos) sb => ⟨.ok done, pos, [], growSize sb ino pos⟩

/-! ## The file operations -/

/-- `osfs_read` below the extent path: the file is one block of bytes. -/
def osfsReadBlock (sb : SbInfo) (inode : Inode) (buf : UserBuf) (len ppos : Nat) : IoResult :=
  match inode.iPrivate with
  -- The source dereferences `i_private` here unchecked; no open inode lacks it.
  | none => ⟨.error Errno.EIO, ppos, [], sb⟩
  | some ino =>
      let osfsInode := sb.inodeTable ino
      if osfsInode.iBlocks = 0 then ⟨.ok 0, ppos, [], sb⟩
      else if ppos ≥ osfsInode.iSize then ⟨.ok 0, ppos, [], sb⟩
      else
        let len := if ppos + len > osfsInode.iSize then osfsInode.iSize - ppos else len
        let copy := copyToUser sb.dataBlocks (blockAddr osfsInode.iBlock + ppos) buf 0 len
        if copy.1 ≠ 0 then ⟨.error .EFAULT, ppos, copy.2, sb⟩
        else ⟨.ok len, ppos + len, copy.2, sb⟩

/-- `osfs_read`. -/
def osfsRead (sb : SbInfo) (inode : Inode) (buf : UserBuf) (len ppos : Nat) : IoResult :=
  if sIsreg inode.iMode then
    let extent := osfsExtentDoRead sb inode buf len ppos
    if extent.ret ≠ .error .EOPNOTSUPP then extent
    else osfsReadBlock extent.sb inode buf len extent.ppos
  else osfsReadBlock sb inode buf len ppos

/-- `osfs_write` once the single block of the file is there. -/
def osfsWriteInBlock (sb : SbInfo) (ino : Nat) (buf : UserBuf) (len ppos : Nat) : IoResult :=
  if ppos ≥ blockSize then ⟨.error .ENOSPC, ppos, [], sb⟩
  else
    let len := if ppos + len > blockSize then blockSize - ppos else len
    let copy :=
      copyFromUser sb.dataBlocks (blockAddr (sb.inodeTable ino).iBlock + ppos) buf 0 len
    if copy.1 ≠ 0 then ⟨.error .EFAULT, ppos, [], sb.setData copy.2⟩
    else ⟨.ok len, ppos + len, [], growSize (sb.setData copy.2) ino (ppos + len)⟩

/-- `osfs_write` below the extent path: the file is one block of bytes. -/
def osfsWriteBlock (sb : SbInfo) (inode : Inode) (buf : UserBuf) (len ppos : Nat) : IoResult :=
  match inode.iPrivate with
  | none => ⟨.error Errno.EIO, ppos, [], sb⟩
  | some ino =>
      if (sb.inodeTable ino).iBlocks = 0 then
        match osfsAllocDataBlock sb with
        | .error e sb => ⟨.error e, ppos, [], sb⟩
        | .ok block sb =>
            let owner := { sb.inodeTable ino with iBlock := block, iBlocks := 1 }
            osfsWriteInBlock (sb.setInode ino owner) ino buf len ppos
      else osfsWriteInBlock sb ino buf len ppos

/-- `osfs_write`. -/
def osfsWrite (sb : SbInfo) (inode : Inode) (buf : UserBuf) (len ppos : Nat) : IoResult :=
  if sIsreg inode.iMode then
    let extent := osfsExtentDoWrite sb inode buf len ppos
    if extent.ret ≠ .error .EOPNOTSUPP then extent
    else osfsWriteBlock extent.sb inode buf len extent.ppos
  else osfsWriteBlock sb inode buf len ppos

end NckuOs.Osfs
