import TreeScript.Proofs.Blocks

/-!
# The Elements of a Block

A block of zeros keeps one value for each list of positions, and the values do not get in
each other's way. That is the law of a table: an element holds what was last written with
just its positions, whatever has been written elsewhere, and zero at first.

The law is carried along the writes. `Heap.Table` says what the block holds, and that no two
lists of positions lead to one row. A write changes one place, and where rows are apart only
one list of positions ends there.

`Heap.Table` is stated with `Heap.elementAt` only, so nothing in it depends on how a block
is laid out. The layout is used once, for the block that has just been made; after that a
write is an equation between what positions lead to before and behind it. That the rows
are apart is part of the invariant and not of the layout, since a write has to keep it.

The writes are taken from the last one on. A table that shows all writes but the last is
changed at one list of positions, and this is what `lastWritten_concat` says of what
should be found.

## Main definitions

* `Heap.Table`: An array holds one value for each list of positions, and nothing else.
* `ElementWrite`, `Heap.assignEach`: Writes one after the other.
* `lastWritten`: What should be found at some positions after them.

## Theorems

* `Heap.table_zeroed`: A block of zeros is a table of zeros.
* `Heap.Table.assign`: A write changes a table at its positions.
* `zeroed_elements_are_independent`: What a block holds after any writes.
* `Heap.Table.eq_of_place?`: Different positions end at different places.
* `lastWritten_concat`: What should be found after one write more.
* `Heap.table_assignEach`: A table after any writes, by induction on them.
-/

namespace TreeScript

namespace Heap

variable {h : Heap} {id : ArrayId} {sides positions : List Nat} {contents : List Nat → Value}
  {v : Value} {s : Slot} {name : String}

/-- An array with one value for each list of positions that lies within the sides and has as
    many positions. Fewer positions lead to a row, as long as the next side, and all others to
    nothing. No row is shared. -/
structure Table (h : Heap) (id : ArrayId) (sides : List Nat) (contents : List Nat → Value) :
    Prop where
  element : ∀ positions, Covers sides positions → positions.length = sides.length →
    h.elementAt id positions = some (contents positions)
  plain : ∀ positions, Covers sides positions → positions.length = sides.length →
    (contents positions).isArray = false
  row : ∀ positions side, Covers sides positions → sides[positions.length]? = some side →
    ∃ row, h.elementAt id positions = some (.array row) ∧ h.length row = side
  outside : ∀ positions, ¬ Covers sides positions → h.elementAt id positions = none
  apart : ∀ positions positions' row, Covers sides positions → Covers sides positions' →
    positions.length < sides.length → positions'.length < sides.length →
    h.elementAt id positions = some (.array row) →
    h.elementAt id positions' = some (.array row) → positions = positions'

/-- A block of zeros is a table of zeros. -/
theorem table_zeroed (hsides : sides ≠ []) (h : Heap) :
    (zeroed sides h).2.Table (zeroed sides h).1 sides fun _ => .int 0 := by
  have hmade := zeroed_spec sides h
  have hz := hmade.zeros
  rw [hmade.id]
  refine ⟨fun positions hc hlen => hz.follow_zero hsides hc hlen, fun _ _ _ => rfl,
    fun positions side hc hside => ?_, fun positions hc => hz.follow_outside hsides hc, ?_⟩
  · -- The row begins with the side behind the positions.
    rcases List.getElem?_eq_some_iff.mp hside with ⟨hlen, rfl⟩
    rcases hz.follow_row hc hlen with ⟨hfollow, hrow⟩
    refine ⟨_, hfollow, ?_⟩
    unfold rowAt
    rw [List.drop_eq_getElem_cons hlen] at hrow ⊢
    exact hrow.length_eq
  · intro positions positions' row hc hc' hlen hlen' hfollow hfollow'
    have hrow := (hz.follow_row hc hlen).1.symm.trans hfollow
    have hrow' := (hz.follow_row hc' hlen').1.symm.trans hfollow'
    have heq := Value.array.inj (Option.some.inj (hrow.trans hrow'.symm))
    exact rowAt_injective hc hc' hlen hlen' heq

/-- Writing an element changes no length. -/
theorem length_write (other : ArrayId) : (h.write s v).length other = h.length other := by
  unfold length write
  by_cases hother : other = s.array
  · rw [hother, items_set_self, Array.size_setIfInBounds]
  · rw [items_set_of_ne h hother]

/-- Only one list of positions ends at a place of a table. -/
theorem Table.eq_of_place? (ht : h.Table id sides contents) {positions' : List Nat}
    (hc : Covers sides positions) (hc' : Covers sides positions')
    (hlen : positions.length = sides.length) (hlen' : positions'.length = sides.length)
    (hs : h.place? id positions = some s) (hs' : h.place? id positions' = some s) :
    positions = positions' := by
  rcases List.eq_nil_or_concat' positions with rfl | ⟨path, last, rfl⟩
  · cases hs
  rcases List.eq_nil_or_concat' positions' with rfl | ⟨path', last', rfl⟩
  · cases hs'
  rcases place?_concat_eq_some_iff.mp hs with ⟨hpath, hlast, -⟩
  rcases place?_concat_eq_some_iff.mp hs' with ⟨hpath', hlast', -⟩
  rw [List.length_append, List.length_singleton] at hlen hlen'
  -- Both paths end in one row, and rows are apart, so they lead there the same way.
  have heq := ht.apart path path' s.array hc.of_concat hc'.of_concat (by omega) (by omega) hpath
    hpath'
  rw [heq, hlast, hlast']

/-- A write changes a table at its positions. -/
theorem Table.assign (ht : h.Table id sides contents) (hc : Covers sides positions)
    (hlen : positions.length = sides.length) (hv : v.isArray = false) (name : String) :
    ∃ h', h.assignElement id positions v name = .ok h' ∧
      h'.Table id sides fun other => if other = positions then v else contents other := by
  rcases exists_open_place (ht.element positions hc hlen) (ht.plain positions hc hlen) with
    ⟨s, hplace, hopen⟩
  refine ⟨h.write s v, assignElement_eq_ok_iff.mpr ⟨s, hplace, hopen, hv, rfl⟩, ?_⟩
  refine ⟨fun other hother hfull => ?_, fun other hother hfull => ?_,
    fun other side hother hside => ?_, fun other hother => ?_,
    fun other other' row hother hother' hshort hshort' hrow hrow' => ?_⟩
  · rw [elementAt_write hopen hv]
    by_cases heq : other = positions
    · rw [heq, if_pos hplace, if_pos rfl]
    · rw [if_neg heq, if_neg, ht.element other hother hfull]
      exact fun hs => heq (ht.eq_of_place? hother hc hfull hlen hs hplace)
  · split
    · exact hv
    · exact ht.plain other hother hfull
  · rcases ht.row other side hother hside with ⟨row, hrow, hside⟩
    refine ⟨row, (elementAt_write_array_iff hopen hv id row other).mpr hrow, ?_⟩
    rw [length_write]
    exact hside
  · -- Nothing was found there, so it is not the place that has been written to.
    have hnone := ht.outside other hother
    rw [elementAt_write hopen hv, if_neg, hnone]
    intro hs
    have hsome := isSome_elementAt_of_place? hs
    rw [hnone] at hsome
    cases hsome
  · rw [elementAt_write_array_iff hopen hv] at hrow hrow'
    exact ht.apart other other' row hother hother' hshort hshort' hrow hrow'

end Heap

/-- A write to an element, with the name that the array is known by. -/
structure ElementWrite where
  positions : List Nat
  value : Value
  name : String
  deriving DecidableEq, Inhabited

/-- The heap after some writes to an array. The first one that is refused ends them. -/
def Heap.assignEach (h : Heap) (id : ArrayId) (writes : List ElementWrite) : Except Fault Heap :=
  writes.foldlM (fun h w => h.assignElement id w.positions w.value w.name) h

/-- The value that was written last with just these positions, or zero. -/
def lastWritten (writes : List ElementWrite) (positions : List Nat) : Value :=
  match writes.reverse.find? fun w => w.positions == positions with
  | some w => w.value
  | none => .int 0

/-- The last write to a path wins. -/
theorem lastWritten_concat (writes : List ElementWrite) (w : ElementWrite) :
    lastWritten (writes ++ [w]) = fun positions =>
      if positions = w.positions then w.value else lastWritten writes positions := by
  funext positions
  unfold lastWritten
  rw [List.reverse_concat, List.find?_cons]
  by_cases h : positions = w.positions
  · simp [h]
  · have hne : (w.positions == positions) = false := by simpa using fun e => h e.symm
    rw [hne, if_neg h]

/-- A write of a value that is no array to an element of a block. -/
structure ElementWrite.Fits (w : ElementWrite) (sides : List Nat) : Prop where
  covers : Covers sides w.positions
  length : w.positions.length = sides.length
  plain : w.value.isArray = false

/-- A table keeps what was written last, whatever is written. -/
theorem Heap.table_assignEach {h : Heap} {id : ArrayId} {sides : List Nat}
    (ht : h.Table id sides fun _ => .int 0) (writes : List ElementWrite)
    (hwrites : ∀ w ∈ writes, w.Fits sides) :
    ∃ h', h.assignEach id writes = .ok h' ∧ h'.Table id sides (lastWritten writes) := by
  induction writes using List.reverseRecOn with
  | nil => exact ⟨h, rfl, ht⟩
  | append_singleton writes w ih =>
      rcases ih fun u hu => hwrites u (List.mem_append_left _ hu) with ⟨h', hbefore, ht'⟩
      have hw := hwrites w (List.mem_append_right _ (List.mem_singleton_self w))
      -- The last write goes to a table that already shows the writes before it.
      rcases ht'.assign hw.covers hw.length hw.plain w.name with ⟨h'', hwrite, ht''⟩
      refine ⟨h'', ?_, ?_⟩
      · unfold assignEach at hbefore ⊢
        rw [foldlM_append_of_ok hbefore, foldlM_cons_of_ok hwrite]
        rfl
      · rw [lastWritten_concat]
        exact ht''

/-- A block of zeros takes all writes of values that are no arrays to its elements. Afterwards
    as many positions as there are sides lead to the value that was written last with just
    these positions, or to zero; fewer positions lead to a row, which is as long as the next
    side and which no other positions lead to; and positions that are not within the sides,
    or too many, lead to nothing. -/
theorem zeroed_elements_are_independent {sides : List Nat} (hsides : sides ≠ []) (h : Heap)
    (writes : List ElementWrite) (hwrites : ∀ w ∈ writes, w.Fits sides) :
    ∃ h', (Heap.zeroed sides h).2.assignEach (Heap.zeroed sides h).1 writes = .ok h' ∧
      h'.Table (Heap.zeroed sides h).1 sides (lastWritten writes) :=
  Heap.table_assignEach (Heap.table_zeroed hsides h) writes hwrites

/-- Writes to a block of two rows, two of them to one element. -/
def someWrites : List ElementWrite :=
  [⟨[1, 2], .int 7, "a"⟩, ⟨[0, 2], .text "x", "a"⟩, ⟨[1, 2], .int 8, "a"⟩]

/-- Two rows of three elements: what is written in one row is not seen in the other. -/
theorem zeroed_elements_are_independent_rows :
    ∃ h', (Heap.zeroed [2, 3] .empty).2.assignEach (Heap.zeroed [2, 3] .empty).1 someWrites =
        .ok h' ∧
      h'.elementAt ⟨2⟩ [1, 2] = some (.int 8) ∧ h'.elementAt ⟨2⟩ [0, 2] = some (.text "x") ∧
      h'.elementAt ⟨2⟩ [1, 1] = some (.int 0) ∧ h'.elementAt ⟨2⟩ [2, 0] = none := by
  have hcovers : ∀ {p q : Nat}, p < 2 → q < 3 → Covers [2, 3] [p, q] := fun hp hq =>
    covers_cons_cons.mpr ⟨hp, covers_cons_cons.mpr ⟨hq, covers_nil []⟩⟩
  have hfits : ∀ w ∈ someWrites, w.Fits [2, 3] := by
    intro w hw
    simp only [someWrites, List.mem_cons, List.not_mem_nil, or_false] at hw
    rcases hw with rfl | rfl | rfl
    · exact ⟨hcovers (by decide) (by decide), rfl, rfl⟩
    · exact ⟨hcovers (by decide) (by decide), rfl, rfl⟩
    · exact ⟨hcovers (by decide) (by decide), rfl, rfl⟩
  rcases zeroed_elements_are_independent (by simp) .empty someWrites hfits with ⟨h', hwritten, ht⟩
  refine ⟨h', hwritten, ?_, ?_, ?_, ?_⟩
  · exact ht.element [1, 2] (hcovers (by decide) (by decide)) rfl
  · exact ht.element [0, 2] (hcovers (by decide) (by decide)) rfl
  · exact ht.element [1, 1] (hcovers (by decide) (by decide)) rfl
  · exact ht.outside [2, 0] fun hc => absurd (covers_cons_cons.mp hc).1 (Nat.lt_irrefl 2)

end TreeScript
