import MonoBus.Construction.Pixels

/-!
# The clipping in checked arithmetic (`_set_pixels`, `_clr_pixels`)

`Construction/Pixels.lean` lets the arithmetic of the two functions wrap.  In C an overflow of a
signed operation is undefined; `visited` evaluates the same loops with every operation checked,
and lists the pixels they visit.  It has a value exactly if `WIDTH_NET - offx` and
`HEIGHT_NET - offy` fit (`visited_eq`), and then the loops that wrap go over the same pixels.
-/

namespace MonoBus

/-- `y0` and `x0`. -/
def checkedFrom (off : Int32) : Option Int32 :=
  if off < 0 then checked32 (-off.toInt) else some 0

/-- `maxy` and `maxx`. -/
def checkedTo (size : ℕ) (off len : Int32) : Option Int32 := do
  let rest ← checked32 (size - off.toInt)
  return maxMacro len rest

/-- The rows and columns the loops of `_set_pixels` and of `_clr_pixels` go over. -/
def visited (offx offy width height : Int32) : Option (List (Int32 × Int32)) := do
  let y0 ← checkedFrom offy
  let x0 ← checkedFrom offx
  let maxy ← checkedTo heightNet offy height
  let maxx ← checkedTo widthNet offx width
  let rows ← (int32UpTo y0 maxy).mapM fun y => do
    let row ← checked32 (offy.toInt + y.toInt)
    (int32UpTo x0 maxx).mapM fun x => do
      let col ← checked32 (offx.toInt + x.toInt)
      return (row, col)
  return rows.flatten

/-! ## When nothing overflows -/

section Axis

variable {size : ℕ} {off len k : Int32}

lemma checkedFrom_eq (hsize : size ≤ 112) (hoff : size - 2 ^ 31 < off.toInt) :
    checkedFrom off = some (clipFrom off) := by
  unfold checkedFrom
  have hneg := toInt_clipFrom off
  split_ifs with h
  · have hlt : off.toInt < 0 := Int32.lt_iff_toInt_lt.mp h
    rw [if_pos hlt, wrap32_of_range (by omega) (by omega)] at hneg
    exact checked32_eq_some.mpr hneg
  · rw [clipFrom, if_neg h]

lemma checkedTo_eq (hsize : size ≤ 112) (hoff : size - 2 ^ 31 < off.toInt) :
    checkedTo size off len = some (clipTo size off len) := by
  have hoff' := int32_toInt_bounds off
  have hrest : checked32 (size - off.toInt) = some (Int32.ofNat size - off) := by
    apply checked32_eq_some.mpr
    rw [int32_toInt_sub, Int32.toInt_ofNat_of_lt (by omega),
      wrap32_of_range (by omega) (by omega)]
  rw [checkedTo, hrest]
  rfl

lemma checkedTo_eq_none (hoff : ¬ size - 2 ^ 31 < off.toInt) : checkedTo size off len = none := by
  have hrest : checked32 (size - off.toInt) = none := checked32_eq_none.mpr (.inr (by omega))
  rw [checkedTo, hrest]
  rfl

/-- No sum of an offset and a loop value overflows. -/
lemma checked32_add (hsize : size ≤ 112) (hoff : size - 2 ^ 31 < off.toInt)
    (hk : k ∈ axis size off len) : checked32 (off.toInt + k.toInt) = some (off + k) := by
  apply checked32_eq_some.mpr
  rw [int32_toInt_add]
  apply wrap32_of_range
  all_goals
    have hoff' := int32_toInt_bounds off
    have hk' := mem_int32UpTo.mp hk
    rw [toInt_clipFrom, toInt_clipTo hsize] at hk'
    unfold wrap32 at hk'
    split at hk' <;> omega

end Axis

lemma mapM_eq_some {α β : Type} {f : α → Option β} {g : α → β} {l : List α}
    (h : ∀ a ∈ l, f a = some (g a)) : l.mapM f = some (l.map g) := by
  induction l with
  | nil => rfl
  | cons a l ih =>
      rw [List.mapM_cons, h a List.mem_cons_self, ih fun x hx => h x (List.mem_cons_of_mem a hx)]
      rfl

lemma flatten_map_map {α β γ : Type} {ys : List α} {xs : List β} (f : α → β → γ) :
    (ys.map fun y => xs.map fun x => f y x).flatten = (ys ×ˢ xs).map fun k => f k.1 k.2 := by
  induction ys with
  | nil => rfl
  | cons y ys ih =>
      rw [List.map_cons, List.flatten_cons, ih, List.product_cons, List.map_append, List.map_map]
      rfl

variable {offx offy width height : Int32}

/-- Without an overflow the loops go over the pixels of `rectKeys`. -/
theorem visited_eq (hoffx : widthNet - 2 ^ 31 < offx.toInt)
    (hoffy : heightNet - 2 ^ 31 < offy.toInt) :
    visited offx offy width height =
      some ((rectKeys offx offy width height).map fun k => (offy + k.1, offx + k.2)) := by
  have hrow : ∀ y ∈ axis heightNet offy height, (do
      let row ← checked32 (offy.toInt + y.toInt)
      (axis widthNet offx width).mapM fun x => do
        let col ← checked32 (offx.toInt + x.toInt)
        return (row, col)) =
      some ((axis widthNet offx width).map fun x => (offy + y, offx + x)) := by
    intro y hy
    rw [checked32_add (by norm_num) hoffy hy]
    refine mapM_eq_some fun x hx => ?_
    rw [checked32_add (by norm_num) hoffx hx]
    rfl
  rw [visited, checkedFrom_eq (by norm_num) hoffy, checkedFrom_eq (by norm_num) hoffx,
    checkedTo_eq (by norm_num) hoffy, checkedTo_eq (by norm_num) hoffx]
  show ((axis heightNet offy height).mapM (fun y => do
      let row ← checked32 (offy.toInt + y.toInt)
      (axis widthNet offx width).mapM fun x => do
        let col ← checked32 (offx.toInt + x.toInt)
        return (row, col)) >>= fun rows => some rows.flatten) = _
  rw [mapM_eq_some hrow]
  exact congrArg some (flatten_map_map fun y x => (offy + y, offx + x))

/-- If one of the two differences does not fit, the loops have no result. -/
theorem visited_eq_none
    (h : ¬ (widthNet - 2 ^ 31 < offx.toInt ∧ heightNet - 2 ^ 31 < offy.toInt)) :
    visited offx offy width height = none := by
  have hbind : ∀ {α β : Type} (x : Option α), (x >>= fun _ => (none : Option β)) = none := by
    intro α β x
    cases x <;> rfl
  unfold visited
  by_cases hoffy : heightNet - 2 ^ 31 < offy.toInt
  · have hoffx : ¬ widthNet - 2 ^ 31 < offx.toInt := fun hoffx => h ⟨hoffx, hoffy⟩
    rw [checkedTo_eq_none hoffx]
    show (checkedFrom offy >>= fun _ => checkedFrom offx >>= fun _ =>
      checkedTo heightNet offy height >>= fun _ => none) = none
    rw [hbind, hbind, hbind]
  · rw [checkedTo_eq_none hoffy]
    show (checkedFrom offy >>= fun _ => checkedFrom offx >>= fun _ => none) = none
    rw [hbind, hbind]

end MonoBus
