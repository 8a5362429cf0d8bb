import NckuOs.Osfs.Composition
import NckuOs.Osfs.Iterate

/-!
# A listing while files are created

Between the calls of a listing others go on: files are created, read and written.  The
directory only grows, and only at its end, so that a position keeps its meaning.
-/

namespace NckuOs.Osfs

open NckuOs.Transition

variable {sb sb' : SbInfo} {stray : Int → DirEntry}

/-- The calls of a listing, each on the state that it finds and with a buffer of its own. -/
def listing (stray : Int → DirEntry) : Nat → List (SbInfo × Nat) → List IterateResult
  | _, [] => []
  | pos, (sb, room) :: later =>
      let result := osfsIterate sb rootInode stray ⟨pos, room, [], false⟩
      result :: listing stray result.ctx.pos later

/-! ## The directory grows -/

theorem length_wholeDir (sb : SbInfo) :
    (wholeDir sb rootInode).length = dirEntryCount sb rootInode + 2 := by
  simp [wholeDir, entriesFrom]

theorem drop_wholeDir (sb : SbInfo) (k : Nat) :
    (wholeDir sb rootInode).drop (k + 2) = entriesFrom sb rootInode k := by
  rw [wholeDir, List.drop_succ_cons, List.drop_succ_cons, entriesFrom, entriesFrom,
    ← List.map_drop, List.drop_range']
  simp

/-- A run appends entries to the directory. -/
theorem wholeDir_prefix (reachable : OsfsReachable sb) {events : List Event}
    (run : Trace (osfsSystem.resume sb) events sb') :
    OsfsReachable sb' ∧ wholeDir sb rootInode <+: wholeDir sb' rootInode := by
  induction run with
  | start initial =>
      have same := (initial : _ = sb)
      rw [same]
      exact ⟨reachable, List.prefix_rfl⟩
  | @snoc events middle event next _ step ih =>
      rcases ih with ⟨here, grown⟩
      have entries := dirEntries_step (inv_of_reachable here) step
      refine ⟨here.snoc step, grown.trans ?_⟩
      simp only [wholeDir, entriesFrom_root, entries, List.map_append]
      exact List.prefix_append _ _

/-! ## One call -/

/-- A position at which a call goes on: at the start, or behind both dots. -/
def Resumable (sb : SbInfo) (pos : Nat) : Prop :=
  pos = 0 ∨ 2 ≤ pos ∧ pos ≤ (wholeDir sb rootInode).length

/-- A call emits what comes next, as far as its buffer has room. -/
structure Emits (sb : SbInfo) (pos room : Nat) (result : IterateResult) : Prop where
  emitted : result.ctx.emitted = ((wholeDir sb rootInode).drop pos).take room
  next : result.ctx.pos = min (pos + room) (wholeDir sb rootInode).length
  refused : result.ctx.refused = decide (pos + room < (wholeDir sb rootInode).length)

theorem LoopResult.emits {k room : Nat} {ctx : DirContext} {result : IterateResult}
    (loop : LoopResult sb rootInode (dirEntryCount sb rootInode - k) k ctx [] result)
    (inside : k ≤ dirEntryCount sb rootInode) (atSlot : ctx.pos = k + 2)
    (accepting : ctx.refused = false) (start : Nat) (sofar : start + room = k + 2 + ctx.room)
    (before : ctx.emitted ++ (entriesFrom sb rootInode k).take ctx.room =
      ((wholeDir sb rootInode).drop start).take room) : Emits sb start room result where
  emitted := loop.emitted.trans before
  next := by
    rw [loop.pos, length_wholeDir, atSlot, sofar]
    omega
  refused := by
    rw [loop.refused, accepting, Bool.false_or, length_wholeDir, sofar]
    apply decide_eq_decide.mpr
    omega

theorem osfsIterate_emits {pos room : Nat} (resumable : Resumable sb pos)
    (notCut : pos = 0 → room ≠ 1) :
    Emits sb pos room (osfsIterate sb rootInode stray ⟨pos, room, [], false⟩) := by
  rcases resumable with rfl | ⟨low, high⟩
  · match room, notCut rfl with
    | 0, _ =>
        rw [osfsIterate_noRoom]
        constructor
        · rfl
        · rfl
        · simp [length_wholeDir]
    | room + 2, _ =>
        have loop := @osfsIterate_dots sb rootInode stray room
        rw [← Nat.sub_zero (dirEntryCount sb rootInode)] at loop
        apply loop.emits (Nat.zero_le _) rfl rfl
        · change 0 + (room + 2) = 0 + 2 + room
          omega
        · rfl
  · rcases Nat.exists_eq_add_of_le' low with ⟨k, rfl⟩
    rw [length_wholeDir] at high
    have loop := @osfsIterate_resumed sb rootInode stray k room (by omega)
    apply loop.emits (by omega) rfl rfl
    · rfl
    · rw [drop_wholeDir]
      rfl

/-! ## All calls -/

/-- One call finds the state that a run has made of the one before. -/
def RunsTo (first second : SbInfo × Nat) : Prop :=
  ∃ events, Trace (osfsSystem.resume first.1) events second.1

theorem listing_emits (stray : Int → DirEntry) {room pos : Nat} {calls : List (SbInfo × Nat)}
    {last : SbInfo × Nat} (reachable : OsfsReachable sb)
    (runs : List.IsChain RunsTo ((sb, room) :: calls)) (resumable : Resumable sb pos)
    (notCut : pos = 0 → ¬CutAtDots (((sb, room) :: calls).map Prod.snd))
    (isLast : ((sb, room) :: calls).getLast? = some last) :
    ∃ stop, (wholeDir sb rootInode).take pos ++
          allEmitted (listing stray pos ((sb, room) :: calls)) =
        (wholeDir last.1 rootInode).take stop ∧
      (Complete (listing stray pos ((sb, room) :: calls)) →
        (wholeDir last.1 rootInode).length ≤ stop) := by
  induction calls generalizing sb room pos with
  | nil =>
      have first := @osfsIterate_emits sb stray pos room resumable
        fun zero one => notCut zero (by simp [CutAtDots, one])
      obtain rfl : (sb, room) = last := Option.some.inj isLast
      refine ⟨pos + room, ?_, ?_⟩
      · simp only [listing, allEmitted, List.flatMap_cons, List.flatMap_nil, List.append_nil,
          first.emitted]
        rw [← List.take_add]
      · rintro ⟨call, isCall, accepted⟩
        obtain rfl : osfsIterate sb rootInode stray ⟨pos, room, [], false⟩ = call :=
          Option.some.inj isCall
        rw [first.refused, decide_eq_false_iff_not] at accepted
        exact Nat.not_lt.mp accepted
  | cons next calls ih =>
      have first := @osfsIterate_emits sb stray pos room resumable
        fun zero one => notCut zero (by simp [CutAtDots, one])
      rw [List.isChain_cons_cons] at runs
      rcases runs with ⟨⟨events, run⟩, others⟩
      rcases wholeDir_prefix reachable run with ⟨nextReachable, grown⟩
      have within := grown.length_le
      have long : 2 ≤ (wholeDir sb rootInode).length := by
        rw [length_wholeDir]
        omega
      have resumableNext : Resumable next.1
          (osfsIterate sb rootInode stray ⟨pos, room, [], false⟩).ctx.pos := by
        rw [first.next]
        rcases resumable with rfl | ⟨low, high⟩
        · have notOne : room ≠ 1 := fun one => notCut rfl (by simp [CutAtDots, one])
          unfold Resumable
          omega
        · right
          omega
      have rest := ih nextReachable others resumableNext ?_ isLast
      · rcases rest with ⟨stop, emitted, complete⟩
        refine ⟨stop, ?_, ?_⟩
        · rw [← emitted, listing, allEmitted_cons, first.emitted, ← List.append_assoc,
            ← List.take_add, first.next]
          congr 1
          rcases grown with ⟨more, split⟩
          rw [← split, List.take_append_of_le_length (Nat.min_le_right _ _),
            ← List.take_eq_take_min]
        · rintro ⟨call, isCall, accepted⟩
          apply complete
          rw [listing, listing, List.getLast?_cons_cons] at isCall
          exact ⟨call, isCall, accepted⟩
      · intro zero cut
        rw [first.next] at zero
        have none : pos = 0 ∧ room = 0 := by omega
        apply notCut none.1
        rw [none.2]
        simpa [CutAtDots] using cut

/-- A listing of the root directory between whose calls anything happens, and that is not
cut between the dots, emits a prefix of what the directory holds at its last call: every
entry at most once, in the order of creation.  If the last call has nothing more to emit,
none is missing, whether the listing found it there or not. -/
theorem listing_while_created (stray : Int → DirEntry) {room : Nat} {calls : List (SbInfo × Nat)}
    {last : SbInfo × Nat} (reachable : OsfsReachable sb)
    (runs : List.IsChain RunsTo ((sb, room) :: calls))
    (notCut : ¬CutAtDots (((sb, room) :: calls).map Prod.snd))
    (isLast : ((sb, room) :: calls).getLast? = some last) :
    allEmitted (listing stray 0 ((sb, room) :: calls)) <+: wholeDir last.1 rootInode ∧
      (Complete (listing stray 0 ((sb, room) :: calls)) →
        allEmitted (listing stray 0 ((sb, room) :: calls)) = wholeDir last.1 rootInode) := by
  rcases listing_emits stray reachable runs (.inl rfl) (fun _ => notCut) isLast with
    ⟨stop, emitted, complete⟩
  rw [List.take_zero, List.nil_append] at emitted
  rw [emitted]
  refine ⟨List.take_prefix _ _, ?_⟩
  intro isComplete
  exact List.take_of_length_le (complete isComplete)

/-- The second file is created between the two calls. -/
theorem listing_while_created_twoFiles :
    allEmitted (listing (fun _ => ([], 0)) 0 [(oneFile, 2), (twoFiles, 5)]) =
      [.dot, .dotdot, .entry ([97], 2), .entry ([98], 3)] := by
  have step : Step oneFile _ _ := .create nameB 0o100644 superuser true (by decide)
  have runs : List.IsChain RunsTo [(oneFile, 2), (twoFiles, 5)] := by
    rw [List.isChain_cons_cons]
    exact ⟨⟨_, (@Trace.here _ _ osfsSystem _).snoc step⟩, List.isChain_singleton _⟩
  have listed := listing_while_created (fun _ => ([], 0)) oneFile_reachable runs (by decide) rfl
  have whole : wholeDir twoFiles rootInode =
      [.dot, .dotdot, .entry ([97], 2), .entry ([98], 3)] := by
    decide +kernel
  rw [← whole]
  apply listed.2
  refine ⟨_, rfl, ?_⟩
  decide +kernel

end NckuOs.Osfs
