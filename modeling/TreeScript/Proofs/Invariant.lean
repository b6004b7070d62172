import TreeScript.Proofs.Levels
import TreeScript.Proofs.Origin

/-!
# Invariants of Arrays and Values

Evaluation changes arrays in two ways only: it makes a new array, and it puts a
value that is no array in the place of one that is no array. What may be kept in
a variable or an element is never a mark. An `Invariant` names a condition on the
arrays and one on the values kept, and has to show that the two changes respect
it; this module and the next one show once and for all that every evaluation
does then, whatever the tree is and however the evaluation ends.

The condition on values may depend on the arrays, but a value that fulfils it
goes on to do so. That is what `Later` says of two machines, and it is what an
operand that has been evaluated needs while the next one is.

Streams do not matter here, and no more does the level of nesting: a machine that
differs in these from one that fulfils an invariant fulfils it too. So what is done
one level deeper keeps an invariant as it does on its own.

## Main definitions

* `Heap.Fits`: Elements that an array may be made of.
* `Invariant`: What the changes of arrays respect.
* `Invariant.Holds`: The invariant of a machine.
* `Invariant.Later`: A machine that evaluation can lead to.
* `Invariant.Keeps`: An action that keeps the invariant, however it ends.

## Theorems

* `Invariant.keeps_bind`: Two actions in a row keep it.
* `Invariant.keeps_nested`: What is done one level deeper keeps it.
* `Invariant.keeps_settle`, `Invariant.keeps_zeroed`: New arrays keep it.
* `Invariant.keeps_assign`, `Invariant.keeps_set`: So do writes.
-/

namespace TreeScript

/-- Whether the value is a mark of either kind. -/
def Value.isMark (v : Value) : Bool := v.isBreak || v.isAbsent

/-- An array may be made of elements that do not nest too deeply. Elements of
    arrays that exist do not, and so they need no check. -/
def Heap.Fits (h : Heap) (items : Array Value) : Prop :=
  h.depthWith items ≤ maxDepth ∨ ∀ v ∈ items, ∃ id, v ∈ h.items id

/-- A condition on arrays and one on the values that are kept, respected by the
    two changes of arrays. -/
structure Invariant where
  /-- The condition on the arrays. -/
  arrays : Heap → Prop
  /-- The condition on a value that is kept. -/
  data : Heap → Value → Prop
  data_plain : ∀ {h v}, v.Plain → data h v
  data_element : ∀ {h id v}, arrays h → data h (.array id) → v ∈ h.items id → data h v
  data_alloc : ∀ {h items v}, data h v → data (h.alloc items).2 v
  data_set : ∀ {h id i v w}, data h w → data (h.set id i v) w
  alloc : ∀ {h items}, arrays h → (∀ v ∈ items, data h v) → h.Fits items →
    arrays (h.alloc items).2 ∧ data (h.alloc items).2 (.array (h.alloc items).1)
  set : ∀ {h id i v}, arrays h → data h (.array id) → h.Open id i → data h v →
    v.isArray = false → arrays (h.set id i v)

namespace Invariant

variable (I : Invariant)

/-- The invariant of a machine: its arrays and what its names are bound to. -/
structure Holds (m : Machine) : Prop where
  arrays : I.arrays m.heap
  bound : ∀ name v, m.store.get? name = some v → I.data m.heap v

/-- The invariant holds on a later machine, and what could be kept still can. -/
structure Later (m m' : Machine) : Prop where
  holds : I.Holds m'
  data : ∀ v, I.data m.heap v → I.data m'.heap v

/-- What evaluation yields: a mark, or a value that may be kept. -/
def Yields (v : Value) (m : Machine) : Prop := v.isMark = true ∨ I.data m.heap v

/-- An action that keeps the invariant, however it ends, and what it yields. -/
def Keeps {α : Type} (m : Machine) (a : Action α) (yields : α → Machine → Prop) : Prop :=
  I.Holds m → Ends a m (fun v m' => I.Later m m' ∧ yields v m') fun _ m' => I.Later m m'

variable {I} {α β : Type} {m m' : Machine} {P : α → Machine → Prop} {Q : β → Machine → Prop}

theorem later_refl (hm : I.Holds m) : I.Later m m := ⟨hm, fun _ hv => hv⟩

theorem Later.trans {m'' : Machine} (h₁ : I.Later m m') (h₂ : I.Later m' m'') :
    I.Later m m'' :=
  ⟨h₂.holds, fun v hv => h₂.data v (h₁.data v hv)⟩

/-- Only arrays and bindings matter. -/
theorem later_of_eq (hm : I.Holds m) (hs : m'.store = m.store) (hh : m'.heap = m.heap) :
    I.Later m m' := by
  refine ⟨⟨?_, ?_⟩, ?_⟩
  · rw [hh]
    exact hm.arrays
  · rw [hs, hh]
    exact hm.bound
  · rw [hh]
    exact fun _ hv => hv

theorem Later.yields {v : Value} (hl : I.Later m m') (hv : I.Yields v m) : I.Yields v m' :=
  hv.imp id (hl.data v)

theorem yields_absent : I.Yields .absent m := Or.inl rfl

/-- An array that is yielded may be kept. -/
theorem Yields.array {id : ArrayId} (hv : I.Yields (.array id) m) : I.data m.heap (.array id) := by
  rcases hv with hmark | hdata
  · cases hmark
  · exact hdata

theorem keeps_pure {v : α} (hv : P v m) : I.Keeps m (pure v) P :=
  fun hm => ends_pure.mpr ⟨later_refl hm, hv⟩

theorem keeps_throw {e : Failure} : I.Keeps m (throw e) P :=
  fun hm => ends_throw.mpr (later_refl hm)

/-- The rule for sequences: what the first action leaves is what the second one starts from. -/
theorem keeps_bind {a : Action α} {f : α → Action β} (ha : I.Keeps m a P)
    (hf : ∀ v m', I.Later m m' → P v m' → I.Keeps m' (f v) Q) : I.Keeps m (a >>= f) Q := by
  intro hm
  rw [ends_bind]
  refine (ha hm).mono (fun v m' hv => ?_) (fun _ _ hl => hl)
  rcases hv with ⟨hl, hP⟩
  -- What comes later than `m'` comes later than `m`.
  refine (hf v m' hl hP hl.holds).mono (fun w m'' hw => ?_) (fun _ _ hl' => hl.trans hl')
  exact ⟨hl.trans hw.1, hw.2⟩

theorem Keeps.mono {P' : α → Machine → Prop} {a : Action α} (ha : I.Keeps m a P)
    (hP : ∀ v m', P v m' → P' v m') : I.Keeps m a P' :=
  fun hm => (ha hm).mono (fun v m' hv => ⟨hv.1, hP v m' hv.2⟩) (fun _ _ hl => hl)

/-- What goes on with the value of a check of a tree keeps the invariant. -/
theorem keeps_shape {x : Except ShapeError α} {f : α → Action β}
    (hf : ∀ v, I.Keeps m (f v) Q) : I.Keeps m (liftM x >>= f) Q := by
  intro hm
  rw [ends_bind, ends_shape]
  exact ⟨fun v _ => hf v hm, fun _ _ => later_refl hm⟩

/-- So does what goes on with the value of a check of sizes. -/
theorem keeps_size {x : Except Panic α} {f : α → Action β}
    (hf : ∀ v, I.Keeps m (f v) Q) : I.Keeps m (liftM x >>= f) Q := by
  intro hm
  rw [ends_bind, ends_size]
  exact ⟨fun v _ => hf v hm, fun _ _ => later_refl hm⟩

/-- A check may be passed or fail; neither touches the machine. -/
theorem keeps_checked {x : Except Fault α} {f : α → Action β}
    (hf : ∀ v, x = .ok v → I.Keeps m (f v) Q) : I.Keeps m (liftM x >>= f) Q := by
  intro hm
  rw [ends_bind, ends_checked]
  exact ⟨fun v hv => hf v hv hm, fun _ _ => later_refl hm⟩

theorem keeps_result {x : Except Fault α} (hx : ∀ v, x = .ok v → P v m) :
    I.Keeps m (liftM x) P := by
  intro hm
  rw [ends_checked]
  exact ⟨fun v hv => ⟨later_refl hm, hx v hv⟩, fun _ _ => later_refl hm⟩

/-- Reading the heap gives what the invariant knows about it. -/
theorem keeps_heap {f : Heap → Action β} (hf : I.arrays m.heap → I.Keeps m (f m.heap) Q) :
    I.Keeps m (heap >>= f) Q :=
  fun hm => ends_bind.mpr (ends_heap.mpr (hf hm.arrays hm))

/-- Looking a name up gives data that the invariant admits. -/
theorem keeps_lookup {name : String} {f : Option Value → Action β}
    (hf : ∀ found, (∀ v, found = some v → I.data m.heap v) → I.Keeps m (f found) Q) :
    I.Keeps m (lookup name >>= f) Q :=
  fun hm => ends_bind.mpr (ends_lookup.mpr (hf _ (hm.bound name) hm))

/-- The values of actions in order, if what is said of a value stays true. -/
theorem keeps_mapM {f : α → Action β} (stays : ∀ v m m', I.Later m m' → Q v m → Q v m')
    (as : List α) (hf : ∀ a ∈ as, ∀ m, I.Keeps m (f a) Q) :
    ∀ m, I.Keeps m (as.mapM f) fun vs m' => ∀ v ∈ vs, Q v m' := by
  induction as with
  | nil => exact fun m => keeps_pure (fun v hv => by cases hv)
  | cons a as ih =>
      intro m
      rw [List.mapM_cons]
      -- The first value is there while the others are computed, which may change arrays.
      refine keeps_bind (hf a List.mem_cons_self m) fun v m₁ _ hv => ?_
      have hrest := ih (fun b hb => hf b (List.mem_cons_of_mem a hb)) m₁
      refine keeps_bind hrest fun vs m₂ h₂ hvs => ?_
      refine keeps_pure fun w hw => ?_
      rcases List.mem_cons.mp hw with rfl | hw
      · exact stays w m₁ m₂ h₂ hv
      · exact hvs w hw

theorem keeps_write {s : String} : I.Keeps m (write s) fun _ _ => True := by
  intro hm
  have hl : I.Later m { m with output := (m.output.write s).1 } := later_of_eq hm rfl rfl
  exact ends_write ⟨hl, trivial⟩ hl

theorem keeps_readLine : I.Keeps m readLine fun _ _ => True := by
  intro hm
  have hl : I.Later m { m with input := (takeLine m.input).2 } := later_of_eq hm rfl rfl
  exact ends_readLine (fun _ => ⟨hl, trivial⟩) hl

/-- Reporting a fault keeps the invariant, and so an action does that is guarded. -/
theorem keeps_guarded {a : Action Value} (ha : I.Keeps m a I.Yields) :
    I.Keeps m (guarded a) I.Yields := by
  intro hm
  unfold guarded
  rw [ends_recover]
  refine (ha hm).mono (fun _ _ hv => hv) fun e m' hl => ?_
  cases e with
  -- Only a fault is taken up, by writing a line.
  | fault f =>
      have hreport : I.Keeps m' (report f.message >>= fun _ => pure .absent) I.Yields :=
        keeps_bind keeps_write fun _ _ _ _ => keeps_pure yields_absent
      exact (hreport hl.holds).mono (fun _ _ hv => ⟨hl.trans hv.1, hv.2⟩)
        (fun _ _ hl' => hl.trans hl')
  | malformed _ => exact hl
  | stream _ => exact hl
  | unfinished => exact hl
  | panicked _ => exact hl

/-- What is done one level deeper keeps the invariant if it does so there. -/
theorem keeps_nested {levels : Nat} {beyond a : Action Value} (hb : I.Keeps m beyond I.Yields)
    (ha : I.Keeps m.entered a I.Yields) : I.Keeps m (nested levels beyond a) I.Yields := by
  intro hm
  unfold nested
  rw [ends_bind, ends_currentDepth]
  split
  · exact hb hm
  · rw [ends_deeper]
    -- The machine inside and the one that is left have the same arrays and bindings.
    have hin : I.Later m m.entered := later_of_eq hm rfl rfl
    have hout : ∀ m', I.Later m.entered m' → I.Later m m'.exited := fun m' hl =>
      hin.trans (hl.trans (later_of_eq hl.holds rfl rfl))
    exact (ha hin.holds).mono (fun _ m' hv => ⟨hout m' hv.1, hv.2⟩) fun _ m' hl => hout m' hl

/-- Arrays that fulfil the condition, where values may be kept that could be
    before. -/
structure Grows (I : Invariant) (h h' : Heap) : Prop where
  arrays : I.arrays h'
  data : ∀ v, I.data h v → I.data h' v

variable {h h' : Heap} {items : Array Value} {v : Value}

theorem Grows.trans {h'' : Heap} (h₁ : I.Grows h h') (h₂ : I.Grows h' h'') : I.Grows h h'' :=
  ⟨h₂.arrays, fun v hv => h₂.data v (h₁.data v hv)⟩

/-- A new storage may be added when its items are data and it is not too deep. -/
theorem grows_alloc (ha : I.arrays h) (hitems : ∀ v ∈ items, I.data h v) (hfits : h.Fits items) :
    I.Grows h (h.alloc items).2 :=
  ⟨(I.alloc ha hitems hfits).1, fun _ hv => I.data_alloc hv⟩

/-- The heap may be replaced by one that has grown out of it. -/
theorem keeps_changeHeap {f : Heap → α × Heap}
    (hf : I.arrays m.heap → I.Grows m.heap (f m.heap).2 ∧
      P (f m.heap).1 { m with heap := (f m.heap).2 }) :
    I.Keeps m (changeHeap f) P := by
  intro hm
  rw [ends_changeHeap]
  rcases hf hm.arrays with ⟨hg, hP⟩
  refine ⟨⟨⟨hg.arrays, fun name v hv => ?_⟩, hg.data⟩, hP⟩
  exact hg.data v (hm.bound name v hv)

/-- A name may be bound to data. -/
theorem keeps_assign {name : String} (hv : I.data m.heap v) :
    I.Keeps m (assign name v) fun _ _ => True := by
  intro hm
  rw [ends_assign]
  -- The arrays are the same, so only the new binding is in question.
  refine ⟨⟨⟨hm.arrays, fun other w hw => ?_⟩, fun _ hd => hd⟩, trivial⟩
  by_cases ho : other = name
  · subst ho
    rw [Store.get?_set_self] at hw
    cases hw
    exact hv
  · rw [Store.get?_set_of_ne ho] at hw
    exact hm.bound other w hw

theorem keeps_fresh (hitems : ∀ v ∈ items, I.data m.heap v) (hfits : m.heap.Fits items) :
    I.Keeps m (settle (.fresh items)) fun v m' => I.data m'.heap v :=
  keeps_changeHeap fun ha =>
    ⟨grows_alloc ha hitems hfits, (I.alloc ha hitems hfits).2⟩

/-- What an operator has produced of its operands may be kept. -/
theorem keeps_settle {left right : Value} {p : Produced} (hl : I.Yields left m)
    (hr : I.Yields right m) (hp : p.From (m.heap.Own left right)) :
    I.Keeps m (settle p) fun v m' => I.data m'.heap v := by
  cases hp with
  | plain hv =>
      exact keeps_changeHeap fun ha => ⟨⟨ha, fun _ hd => hd⟩, I.data_plain hv⟩
  | fresh hown =>
      intro hm
      -- The elements are those of an operand, which may be kept if it is an array.
      refine keeps_fresh (fun v hv => ?_) (Or.inr fun v hv => ?_) hm
      · rcases hown v hv with ⟨id, rfl | rfl, hmem⟩
        · exact I.data_element hm.arrays hl.array hmem
        · exact I.data_element hm.arrays hr.array hmem
      · rcases hown v hv with ⟨id, _, hmem⟩
        exact ⟨id, hmem⟩

/-- An open slot may be filled with data that is not an array, so no array becomes deeper. -/
theorem keeps_set {id : ArrayId} {i : Nat} (hid : I.data m.heap (.array id))
    (ho : m.heap.Open id i) (hv : I.data m.heap v) (hn : v.isArray = false) :
    I.Keeps m (changeHeap fun h => ((), h.set id i v)) fun _ m' => I.data m'.heap v :=
  keeps_changeHeap fun ha => ⟨⟨I.set ha hid ho hv hn, fun _ hd => I.data_set hd⟩, I.data_set hv⟩

/-- A new array of at most the given depth, behind arrays that stay as they were. -/
structure Made (I : Invariant) (h : Heap) (depth : Nat) (made : ArrayId × Heap) : Prop where
  grows : I.Grows h made.2
  older : h.Extends made.2
  data : I.data made.2 (.array made.1)
  lt : made.1.index < made.2.cells.size
  depth : made.2.depth made.1 ≤ depth

/-- One storage on top of rows of known depth. -/
theorem made_alloc {d : Nat} (ha : I.arrays h) (hitems : ∀ v ∈ items, I.data h v)
    (hd : h.depthWith items ≤ d) (hmax : d ≤ maxDepth) : I.Made h d (h.alloc items) := by
  have hfits : h.Fits items := Or.inl (Nat.le_trans hd hmax)
  refine ⟨grows_alloc ha hitems hfits, Heap.extends_alloc h items, (I.alloc ha hitems hfits).2,
    ?_, ?_⟩
  · rw [Heap.size_alloc, Heap.alloc_id]
    exact Nat.lt_succ_self _
  · rw [Heap.depth_alloc, if_pos (by rw [Heap.alloc_id])]
    exact hd

/-- Some rows of a block, made behind the arrays that there were before. -/
structure Rows (I : Invariant) (h : Heap) (depth : Nat) (block : Array Value × Heap) : Prop where
  grows : I.Grows h block.2
  older : h.Extends block.2
  rows : ∀ v ∈ block.1, I.data block.2 v ∧
    ∃ id, v = .array id ∧ id.index < block.2.cells.size ∧ block.2.depth id ≤ depth

/-- A block of rows with one more row. -/
theorem Rows.push {d : Nat} {block : Array Value × Heap} {made : ArrayId × Heap}
    (hb : I.Rows h d block) (hm : I.Made block.2 d made) :
    I.Rows h d (block.1.push (.array made.1), made.2) := by
  refine ⟨hb.grows.trans hm.grows, hb.older.trans hm.older, fun v hv => ?_⟩
  rcases Array.mem_push.mp hv with hv | rfl
  · rcases hb.rows v hv with ⟨hdata, id, rfl, hlt, hdepth⟩
    -- An older row has kept its place and its depth.
    refine ⟨hm.grows.data _ hdata, id, rfl, Nat.lt_of_lt_of_le hlt hm.older.size_le, ?_⟩
    rw [hm.older.depth_eq hlt]
    exact hdepth
  · exact ⟨hm.data, made.1, rfl, hm.lt, hm.depth⟩

/-- A block of zeros is made one array after the other, and no deeper than it has
    sides. -/
theorem made_zeroed : ∀ (sides : List Nat) (h : Heap), I.arrays h → sides.length ≤ maxDepth →
    I.Made h (max 1 sides.length) (Heap.zeroed sides h)
  | [], h, ha, _ => by
      refine made_alloc ha (fun v hv => by simp at hv) ?_ (by decide)
      exact Heap.depthWith_le_iff.mpr fun v hv => by simp at hv
  | [n], h, ha, _ => by
      -- The innermost arrays hold numbers.
      have hzero : ∀ v ∈ Array.replicate n (Value.int 0), v = .int 0 :=
        fun v hv => (Array.mem_replicate.mp hv).2
      refine made_alloc ha (fun v hv => ?_) (Heap.depthWith_le_iff.mpr fun v hv => ?_)
        (by simp [maxDepth])
      · rw [hzero v hv]
        exact I.data_plain (.number _)
      · rw [hzero v hv]
        exact Nat.le_refl 0
  | n :: s :: sides, h, ha, hlen => by
      have hlen' : (s :: sides).length + 1 ≤ maxDepth := hlen
      have hmax : max 1 (n :: s :: sides).length = max 1 (s :: sides).length + 1 := by
        simp only [List.length_cons]
        omega
      -- The rows so far are the invariant of the loop that makes them.
      have hrows : I.Rows h (max 1 (s :: sides).length) (Nat.repeat (fun block =>
          (block.1.push (.array (Heap.zeroed (s :: sides) block.2).1),
            (Heap.zeroed (s :: sides) block.2).2)) n (#[], h)) := by
        refine repeat_keeps (fun block hb => ?_) n ?_
        · exact hb.push (made_zeroed (s :: sides) block.2 hb.grows.arrays (by omega))
        · exact ⟨⟨ha, fun _ hv => hv⟩, Heap.extends_refl h, fun v hv => by simp at hv⟩
      rw [hmax]
      -- The array of all rows comes last and is one deeper than they are.
      have hmade := made_alloc (d := max 1 (s :: sides).length + 1) hrows.grows.arrays
        (fun v hv => (hrows.rows v hv).1) (Heap.depthWith_le_iff.mpr fun v hv => ?_) ?_
      · exact ⟨hrows.grows.trans hmade.grows, hrows.older.trans hmade.older, hmade.data,
          hmade.lt, hmade.depth⟩
      · rcases (hrows.rows v hv).2 with ⟨id, rfl, _, hd⟩
        exact hd
      · simp only [List.length_cons] at hlen' ⊢
        omega

/-- A block of zeros is data, as deep as it has sides. -/
theorem keeps_zeroed {sides : List Nat} (hlen : sides.length ≤ maxDepth) :
    I.Keeps m (changeHeap (Heap.zeroed sides)) fun id m' => I.data m'.heap (.array id) :=
  keeps_changeHeap fun ha =>
    ⟨(made_zeroed sides m.heap ha hlen).grows, (made_zeroed sides m.heap ha hlen).data⟩

end Invariant

end TreeScript
