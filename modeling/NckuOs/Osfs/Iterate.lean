import NckuOs.Osfs.Reachable

/-!
# `osfs_iterate`: listing a directory

A listing is a sequence of calls.  Each call fills the buffer of its
`dir_context` until the buffer refuses an entry, and the next one goes on at the
position that it left.
-/

namespace NckuOs.Osfs

/-- What a buffer receives. -/
inductive Emitted
  | dot
  | dotdot
  | entry (entry : DirEntry)
  deriving DecidableEq

/-- `struct dir_context` with its buffer: how many more entries it accepts, those it
has accepted, and whether it has refused one. -/
structure DirContext where
  pos : Nat
  room : Nat
  emitted : List Emitted
  refused : Bool

/-- `dir_emit`. -/
def dirEmit (ctx : DirContext) (entry : Emitted) : Bool × DirContext :=
  match ctx.room with
  | 0 => (false, { ctx with refused := true })
  | room + 1 => (true, { ctx with room := room, emitted := ctx.emitted ++ [entry] })

/-- `dir_emit_dots`: `.` at position 0, then `..` at position 1. -/
def dirEmitDots (ctx : DirContext) : Bool × DirContext :=
  let dot := if ctx.pos = 0 then dirEmit ctx .dot else (true, ctx)
  if !dot.1 then (false, dot.2)
  else
    let ctx := if ctx.pos = 0 then { dot.2 with pos := 1 } else ctx
    let dotdot := if ctx.pos = 1 then dirEmit ctx .dotdot else (true, ctx)
    if !dotdot.1 then (false, dotdot.2)
    else (true, if ctx.pos = 1 then { dotdot.2 with pos := 2 } else ctx)

/-- What a call of `osfs_iterate` returns and leaves, and the indices of the slots
that it has read. -/
structure IterateResult where
  ret : Except Errno Unit
  ctx : DirContext
  slots : List Int

/-- `dir_entries[i]`; `stray` stands for the memory in front of the directory's
block. -/
def dirEntryAt (sb : SbInfo) (parent : Nat) (stray : Int → DirEntry) : Int → DirEntry
  | .ofNat i =>
      (slotName sb.dataBlocks (dirSlot (dirBase sb parent) i),
        slotInodeNo sb.dataBlocks (dirSlot (dirBase sb parent) i))
  | .negSucc i => stray (.negSucc i)

/-- The loop of `osfs_iterate` from index `i` on, with `n` indices to go. -/
def iterateLoop (entryAt : Int → DirEntry) : Nat → Int → DirContext → List Int → IterateResult
  | 0, _, ctx, slots => ⟨.ok (), ctx, slots⟩
  | n + 1, i, ctx, slots =>
      let emit := dirEmit ctx (.entry (entryAt i))
      if !emit.1 then ⟨.error .EINVAL, emit.2, slots ++ [i]⟩
      else iterateLoop entryAt n (i + 1) { emit.2 with pos := emit.2.pos + 1 } (slots ++ [i])

/-- `osfs_iterate`. -/
def osfsIterate (sb : SbInfo) (parent : Nat) (stray : Int → DirEntry) (ctx : DirContext) :
    IterateResult :=
  let dots := if ctx.pos = 0 then dirEmitDots ctx else (true, ctx)
  if !dots.1 then ⟨.ok (), dots.2, []⟩
  else
    let i : Int := dots.2.pos - 2
    iterateLoop (dirEntryAt sb parent stray) (dirEntryCount sb parent - i).toNat i dots.2 []

/-- The calls of a listing that goes on at `pos`, one for each buffer. -/
def iterateCalls (sb : SbInfo) (parent : Nat) (stray : Int → DirEntry) :
    Nat → List Nat → List IterateResult
  | _, [] => []
  | pos, room :: rest =>
      let result := osfsIterate sb parent stray ⟨pos, room, [], false⟩
      result :: iterateCalls sb parent stray result.ctx.pos rest

/-! ## What a listing is to give -/

/-- Everything that the calls have emitted. -/
def allEmitted (calls : List IterateResult) : List Emitted :=
  calls.flatMap fun call => call.ctx.emitted

/-- The entries from slot `k` on. -/
def entriesFrom (sb : SbInfo) (parent k : Nat) : List Emitted :=
  (List.range' k (dirEntryCount sb parent - k)).map fun i =>
    .entry
      (slotName sb.dataBlocks (dirSlot (dirBase sb parent) i),
        slotInodeNo sb.dataBlocks (dirSlot (dirBase sb parent) i))

/-- The whole directory. -/
def wholeDir (sb : SbInfo) (parent : Nat) : List Emitted :=
  .dot :: .dotdot :: entriesFrom sb parent 0

/-- The last call has nothing more to emit. -/
def Complete (calls : List IterateResult) : Prop :=
  ∃ last, calls.getLast? = some last ∧ last.ctx.refused = false

/-- Only slots of the directory are read. -/
def InDir (sb : SbInfo) (parent : Nat) (calls : List IterateResult) : Prop :=
  ∀ call ∈ calls, ∀ i ∈ call.slots, 0 ≤ i ∧ i < dirEntryCount sb parent

/-- The first buffer that accepts anything accepts `.` and refuses `..`. -/
def CutAtDots (rooms : List Nat) : Prop :=
  rooms.find? (fun room => room ≠ 0) = some 1

instance (rooms : List Nat) : Decidable (CutAtDots rooms) :=
  inferInstanceAs (Decidable (_ = _))

/-- The root directory's entries are those of the view. -/
theorem entriesFrom_root (sb : SbInfo) :
    entriesFrom sb rootInode 0 = (dirEntries sb).map Emitted.entry := by
  rw [entriesFrom, dirEntries, List.map_map, Nat.sub_zero, List.range_eq_range']
  rfl

/-! ## One call -/

variable {sb : SbInfo} {parent : Nat} {stray : Int → DirEntry}

/-- The loop emits entries as long as there is room. -/
structure LoopResult (sb : SbInfo) (parent n k : Nat) (ctx : DirContext) (slots : List Int)
    (result : IterateResult) : Prop where
  emitted : result.ctx.emitted = ctx.emitted ++ (entriesFrom sb parent k).take ctx.room
  pos : result.ctx.pos = ctx.pos + min ctx.room n
  refused : result.ctx.refused = (ctx.refused || decide (ctx.room < n))
  inDir : ∀ i ∈ result.slots, i ∈ slots ∨ (k : Int) ≤ i ∧ i < k + n

theorem entriesFrom_cons (stray : Int → DirEntry) {k : Nat} (below : k < dirEntryCount sb parent) :
    entriesFrom sb parent k =
      .entry (dirEntryAt sb parent stray k) :: entriesFrom sb parent (k + 1) := by
  have count : dirEntryCount sb parent - k = dirEntryCount sb parent - (k + 1) + 1 := by omega
  rw [entriesFrom, count, List.range'_succ, List.map_cons]
  rfl

theorem iterateLoop_result (n k : Nat) (ctx : DirContext) (slots : List Int)
    (count : k + n = dirEntryCount sb parent) :
    LoopResult sb parent n k ctx slots
      (iterateLoop (dirEntryAt sb parent stray) n k ctx slots) := by
  induction n generalizing k ctx slots with
  | zero =>
      have none : entriesFrom sb parent k = [] := by
        rw [entriesFrom, ← count]
        simp
      constructor
      · simp [iterateLoop, none]
      · simp [iterateLoop]
      · simp [iterateLoop]
      · intro i isMem
        exact .inl isMem
  | succ n ih =>
      have below : k < dirEntryCount sb parent := by omega
      have next := entriesFrom_cons stray below
      rcases ctx with ⟨pos, _ | room, emitted, refused⟩
      · constructor
        · simp [iterateLoop, dirEmit]
        · simp [iterateLoop, dirEmit]
        · simp [iterateLoop, dirEmit]
        · intro i isMem
          simp only [iterateLoop, dirEmit, Bool.not_false, if_true, List.mem_append,
            List.mem_singleton] at isMem
          rcases isMem with earlier | rfl
          · exact .inl earlier
          · right
            omega
      · have rest := ih (k + 1)
          ⟨pos + 1, room, emitted ++ [.entry (dirEntryAt sb parent stray k)], refused⟩
          (slots ++ [(k : Int)]) (by omega)
        have unfolded : iterateLoop (dirEntryAt sb parent stray) (n + 1) k
            ⟨pos, room + 1, emitted, refused⟩ slots =
              iterateLoop (dirEntryAt sb parent stray) n ((k + 1 : Nat) : Int)
                ⟨pos + 1, room, emitted ++ [.entry (dirEntryAt sb parent stray k)], refused⟩
                (slots ++ [(k : Int)]) := by
          simp [iterateLoop, dirEmit]
        rw [unfolded]
        constructor
        · rw [rest.emitted, next, List.take_succ_cons, List.append_assoc]
          rfl
        · rw [rest.pos]
          dsimp only
          omega
        · rw [rest.refused]
          simp
        · intro i isMem
          rcases rest.inDir i isMem with earlier | ⟨low, high⟩
          · rw [List.mem_append, List.mem_singleton] at earlier
            rcases earlier with earlier | rfl
            · exact .inl earlier
            · right
              omega
          · right
            omega

/-- The slots that the loop has read stay read. -/
theorem mem_iterateLoop_slots {entryAt : Int → DirEntry} {j : Int} (n : Nat) (i : Int)
    (ctx : DirContext) (slots : List Int) (isMem : j ∈ slots) :
    j ∈ (iterateLoop entryAt n i ctx slots).slots := by
  induction n generalizing i ctx slots with
  | zero => exact isMem
  | succ n ih =>
      simp only [iterateLoop]
      split
      · exact List.mem_append_left _ isMem
      · exact ih _ _ _ (List.mem_append_left _ isMem)

/-- A call that goes on behind the dots. -/
theorem osfsIterate_resumed {k : Nat} (room : Nat) (inside : k ≤ dirEntryCount sb parent) :
    LoopResult sb parent (dirEntryCount sb parent - k) k ⟨k + 2, room, [], false⟩ []
      (osfsIterate sb parent stray ⟨k + 2, room, [], false⟩) := by
  have index : ((k + 2 : Nat) : Int) - 2 = (k : Int) := by omega
  have steps : ((dirEntryCount sb parent : Int) - (k : Int)).toNat =
      dirEntryCount sb parent - k := by omega
  have unfolded : osfsIterate sb parent stray ⟨k + 2, room, [], false⟩ =
      iterateLoop (dirEntryAt sb parent stray) (dirEntryCount sb parent - k) k
        ⟨k + 2, room, [], false⟩ [] := by
    simp only [osfsIterate, Nat.add_eq_zero_iff, OfNat.ofNat_ne_zero, and_false, if_false,
      Bool.not_true, Bool.false_eq_true, index, steps]
  rw [unfolded]
  exact iterateLoop_result _ _ _ _ (by omega)

/-- A first call with room for both dots. -/
theorem osfsIterate_dots (room : Nat) :
    LoopResult sb parent (dirEntryCount sb parent) 0 ⟨2, room, [.dot, .dotdot], false⟩ []
      (osfsIterate sb parent stray ⟨0, room + 2, [], false⟩) := by
  have unfolded : osfsIterate sb parent stray ⟨0, room + 2, [], false⟩ =
      iterateLoop (dirEntryAt sb parent stray) (dirEntryCount sb parent) ((0 : Nat) : Int)
        ⟨2, room, [.dot, .dotdot], false⟩ [] := by
    simp [osfsIterate, dirEmitDots, dirEmit]
  rw [unfolded]
  exact iterateLoop_result _ _ _ _ (Nat.zero_add _)

/-- A first call with a full buffer emits nothing. -/
theorem osfsIterate_noRoom :
    osfsIterate sb parent stray ⟨0, 0, [], false⟩ = ⟨.ok (), ⟨0, 0, [], true⟩, []⟩ := by
  simp [osfsIterate, dirEmitDots, dirEmit]

/-- A first call with room for one entry stops between the dots. -/
theorem osfsIterate_cut :
    osfsIterate sb parent stray ⟨0, 1, [], false⟩ = ⟨.ok (), ⟨1, 0, [.dot], true⟩, []⟩ := by
  simp [osfsIterate, dirEmitDots, dirEmit]

/-- A call that goes on between the dots reads the slot in front of the first. -/
theorem osfsIterate_between (room : Nat) :
    -1 ∈ (osfsIterate sb parent stray ⟨1, room, [], false⟩).slots := by
  have steps : ((dirEntryCount sb parent : Int) - (((1 : Nat) : Int) - 2)).toNat =
      dirEntryCount sb parent + 1 := by omega
  simp only [osfsIterate, Nat.one_ne_zero, if_false, Bool.not_true, Bool.false_eq_true, steps,
    iterateLoop]
  split
  · exact List.mem_singleton.mpr rfl
  · exact mem_iterateLoop_slots _ _ _ _ (List.mem_singleton.mpr rfl)

/-! ## A sequence of calls -/

theorem drop_entriesFrom (k room : Nat) :
    (entriesFrom sb parent k).drop room =
      entriesFrom sb parent (k + min room (dirEntryCount sb parent - k)) := by
  rw [entriesFrom, ← List.map_drop, List.drop_range', entriesFrom]
  by_cases short : room ≤ dirEntryCount sb parent - k
  · rw [Nat.min_eq_left short, Nat.mul_one]
    congr 2
    omega
  · have none : dirEntryCount sb parent - k - room = 0 := by omega
    have none' : dirEntryCount sb parent - (k + (dirEntryCount sb parent - k)) = 0 := by omega
    rw [Nat.min_eq_right (by omega), none, none']
    rfl

theorem allEmitted_cons (call : IterateResult) (rest : List IterateResult) :
    allEmitted (call :: rest) = call.ctx.emitted ++ allEmitted rest :=
  rfl

theorem inDir_cons {call : IterateResult} {rest : List IterateResult}
    (first : ∀ i ∈ call.slots, 0 ≤ i ∧ i < dirEntryCount sb parent)
    (others : InDir sb parent rest) : InDir sb parent (call :: rest) := by
  intro other isMem
  rcases List.mem_cons.mp isMem with rfl | isMem
  · exact first
  · exact others other isMem

/-- What calls from some position on give of the entries that are left. -/
structure Lists (sb : SbInfo) (parent : Nat) (left : List Emitted) (calls : List IterateResult) :
    Prop where
  pre : allEmitted calls <+: left
  inDir : InDir sb parent calls
  all : Complete calls → allEmitted calls = left

/-- One call, and the calls that go on where it stopped. -/
theorem Lists.cons {left emitted : List Emitted} {call : IterateResult}
    {rest : List IterateResult} (emits : call.ctx.emitted = emitted)
    (inDir : ∀ i ∈ call.slots, 0 ≤ i ∧ i < dirEntryCount sb parent)
    (done : call.ctx.refused = false → left = [])
    (others : Lists sb parent left rest) :
    Lists sb parent (emitted ++ left) (call :: rest) := by
  subst emits
  constructor
  · rw [allEmitted_cons, List.prefix_append_right_inj]
    exact others.pre
  · exact inDir_cons inDir others.inDir
  · rintro ⟨last, isLast, accepted⟩
    rw [allEmitted_cons]
    cases rest with
    | nil =>
        obtain rfl : call = last := Option.some.inj isLast
        rw [done accepted]
        rfl
    | cons next rest =>
        rw [List.getLast?_cons_cons] at isLast
        rw [others.all ⟨last, isLast, accepted⟩]

/-- A call whose loop starts at slot `k`, and the calls that go on where it stopped. -/
theorem Lists.of_loop {k : Nat} {ctx : DirContext} {call : IterateResult} {rest : List Nat}
    (inside : k ≤ dirEntryCount sb parent) (pos : ctx.pos = k + 2) (accepting : ctx.refused = false)
    (loop : LoopResult sb parent (dirEntryCount sb parent - k) k ctx [] call)
    (others : ∀ j ≤ dirEntryCount sb parent,
      Lists sb parent (entriesFrom sb parent j) (iterateCalls sb parent stray (j + 2) rest)) :
    Lists sb parent (ctx.emitted ++ entriesFrom sb parent k)
      (call :: iterateCalls sb parent stray call.ctx.pos rest) := by
  have next : call.ctx.pos = k + min ctx.room (dirEntryCount sb parent - k) + 2 := by
    rw [loop.pos, pos]
    omega
  rw [← List.take_append_drop ctx.room (entriesFrom sb parent k), drop_entriesFrom,
    ← List.append_assoc, next]
  apply Lists.cons loop.emitted
  · intro i isMem
    rcases loop.inDir i isMem with earlier | ⟨low, high⟩
    · cases earlier
    · omega
  · intro accepted
    rw [loop.refused, accepting, Bool.false_or, decide_eq_false_iff_not] at accepted
    have none : dirEntryCount sb parent - (k + min ctx.room (dirEntryCount sb parent - k)) = 0 := by
      omega
    rw [entriesFrom, none]
    rfl
  · exact others _ (by omega)

/-- No calls. -/
theorem lists_nil (left : List Emitted) : Lists sb parent left [] := by
  constructor
  · exact List.nil_prefix
  · intro call isMem
    cases isMem
  · rintro ⟨last, isLast, _⟩
    cases isLast

/-- Calls that go on behind the dots. -/
theorem lists_resumed (k : Nat) (inside : k ≤ dirEntryCount sb parent) (rooms : List Nat) :
    Lists sb parent (entriesFrom sb parent k) (iterateCalls sb parent stray (k + 2) rooms) := by
  induction rooms generalizing k with
  | nil => exact lists_nil _
  | cons room rest ih =>
      exact Lists.of_loop inside rfl rfl (osfsIterate_resumed room inside) ih

/-- Calls from the start, unless the first buffer is cut between the dots. -/
theorem lists_from_start (sb : SbInfo) (parent : Nat) (stray : Int → DirEntry)
    {rooms : List Nat} (notCut : ¬CutAtDots rooms) :
    Lists sb parent (wholeDir sb parent) (iterateCalls sb parent stray 0 rooms) := by
  induction rooms with
  | nil => exact lists_nil _
  | cons room rest ih =>
      rcases room with _ | _ | room
      · have others := ih (by simpa [CutAtDots] using notCut)
        rw [iterateCalls, osfsIterate_noRoom]
        have listed : Lists sb parent ([] ++ wholeDir sb parent)
            (⟨.ok (), ⟨0, 0, [], true⟩, []⟩ :: iterateCalls sb parent stray 0 rest) := by
          refine Lists.cons rfl ?_ ?_ others
          · intro i isMem
            cases isMem
          · intro accepted
            cases accepted
        exact listed
      · simp [CutAtDots] at notCut
      · exact Lists.of_loop (Nat.zero_le _) rfl rfl (osfsIterate_dots room)
          fun j inside => lists_resumed j inside rest

/-- A call that refused an entry is not the last one. -/
theorem complete_of_refused {call : IterateResult} {rest : List IterateResult}
    (refused : call.ctx.refused = true) (complete : Complete (call :: rest)) : Complete rest := by
  rcases complete with ⟨last, isLast, accepted⟩
  cases rest with
  | nil =>
      obtain rfl : call = last := Option.some.inj isLast
      rw [refused] at accepted
      cases accepted
  | cons next rest =>
      rw [List.getLast?_cons_cons] at isLast
      exact ⟨last, isLast, accepted⟩

/-- After a cut between the dots a slot outside the directory is read. -/
theorem not_inDir_of_cut {rooms : List Nat} (cut : CutAtDots rooms)
    (complete : Complete (iterateCalls sb parent stray 0 rooms)) :
    ¬InDir sb parent (iterateCalls sb parent stray 0 rooms) := by
  induction rooms with
  | nil => simp [CutAtDots] at cut
  | cons room rest ih =>
      intro inDir
      rcases room with _ | _ | room
      · rw [iterateCalls, osfsIterate_noRoom] at complete inDir
        apply ih (by simpa [CutAtDots] using cut) (complete_of_refused rfl complete)
        intro call isMem
        exact inDir call (List.mem_cons_of_mem _ isMem)
      · rw [iterateCalls, osfsIterate_cut] at complete inDir
        have more := complete_of_refused rfl complete
        cases rest with
        | nil =>
            rcases more with ⟨last, isLast, _⟩
            cases isLast
        | cons room rest =>
            have isMem : osfsIterate sb parent stray ⟨1, room, [], false⟩ ∈
                iterateCalls sb parent stray 1 (room :: rest) := List.mem_cons_self
            have outside := inDir _ (List.mem_cons_of_mem _ isMem) (-1) (osfsIterate_between room)
            omega
      · simp [CutAtDots] at cut

/-- A listing that is never cut between the dots emits a prefix of the directory and
reads its slots only.  One whose last call has nothing more to emit has emitted the
whole directory, and has read its slots only, exactly if it was not cut there. -/
theorem listing_complete_iff (sb : SbInfo) (parent : Nat) (stray : Int → DirEntry)
    (rooms : List Nat) :
    (¬CutAtDots rooms →
      allEmitted (iterateCalls sb parent stray 0 rooms) <+: wholeDir sb parent ∧
        InDir sb parent (iterateCalls sb parent stray 0 rooms)) ∧
    (Complete (iterateCalls sb parent stray 0 rooms) →
      ((allEmitted (iterateCalls sb parent stray 0 rooms) = wholeDir sb parent ∧
          InDir sb parent (iterateCalls sb parent stray 0 rooms)) ↔ ¬CutAtDots rooms)) := by
  constructor
  · intro notCut
    have listed := lists_from_start sb parent stray notCut
    exact ⟨listed.pre, listed.inDir⟩
  · intro complete
    constructor
    · rintro ⟨_, inDir⟩ cut
      exact not_inDir_of_cut cut complete inDir
    · intro notCut
      have listed := lists_from_start sb parent stray notCut
      exact ⟨listed.all complete, listed.inDir⟩

/-- The calls that list a directory with one file, with nothing in front of it. -/
def oneFileCalls (rooms : List Nat) : List IterateResult :=
  iterateCalls oneFile rootInode (fun _ => ([], 0)) 0 rooms

theorem complete_oneFileCalls (rooms : List Nat)
    (accepted : ((oneFileCalls rooms).getLast?.map fun call => call.ctx.refused) = some false) :
    Complete (oneFileCalls rooms) := by
  rcases Option.map_eq_some_iff.mp accepted with ⟨last, isLast, notRefused⟩
  exact ⟨last, isLast, notRefused⟩

/-- Three calls, the first with a full buffer and the second without room for the
file. -/
theorem listing_complete_oneFile :
    allEmitted (oneFileCalls [0, 2, 1]) = wholeDir oneFile rootInode ∧
      InDir oneFile rootInode (oneFileCalls [0, 2, 1]) := by
  have complete := complete_oneFileCalls [0, 2, 1] (by decide +kernel)
  exact ((listing_complete_iff _ _ _ _).2 complete).mpr (by decide)

/-- A first call with room for `.` only: the next one emits what is in front of the
directory instead of `..`. -/
theorem listing_cut_at_dots :
    Complete (oneFileCalls [1, 3]) ∧
      allEmitted (oneFileCalls [1, 3]) = [.dot, .entry ([], 0), .entry ([97], 2)] ∧
      ¬InDir oneFile rootInode (oneFileCalls [1, 3]) := by
  have complete := complete_oneFileCalls [1, 3] (by decide +kernel)
  have cut : CutAtDots [1, 3] := by decide
  refine ⟨complete, ?_, not_inDir_of_cut cut complete⟩
  decide +kernel

end NckuOs.Osfs
