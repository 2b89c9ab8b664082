import MonoBus.Construction.OscReader
import MonoBus.Construction.Pixels

/-!
# Dispatching a message (`_lv2_osc_trees_internal`, `lv2_osc_reader_match`, `_priority`)

A path is matched segment by segment against a tree of names.  Each branch that matches gets a
copy of the reader, but all of them share one argument record, which the model threads through:
what a branch leaves in it is what the next branch finds.

`_priority` is generic in what it does to a bitmap.  With `Call.exec` it is the daemon's; with
a function that records its calls it says which calls a message makes.
-/

namespace MonoBus

/-! ## Pattern matching -/

/-- Letters and digits, which `fnmatch` takes literally. -/
def isOrdinary (c : UInt8) : Bool :=
  ('0'.toUInt8 ≤ c && c ≤ '9'.toUInt8) || ('A'.toUInt8 ≤ c && c ≤ 'Z'.toUInt8) ||
    ('a'.toUInt8 ≤ c && c ≤ 'z'.toUInt8)

/-- The C library's `fnmatch(pattern, name, FNM_NOESCAPE | FNM_EXTMATCH) == 0`: a pattern of
ordinary characters matches itself and nothing else. -/
structure Fnmatch where
  run : List UInt8 → List UInt8 → Bool
  run_ordinary : ∀ pattern name, (∀ c ∈ pattern, isOrdinary c = true) →
    run pattern name = decide (pattern = name)

/-- Matching with `?` as the only special character. -/
def wildcardMatch : List UInt8 → List UInt8 → Bool
  | [], name => name.isEmpty
  | p :: pattern, c :: name => (p = '?'.toUInt8 || p = c) && wildcardMatch pattern name
  | _ :: _, [] => false

/-- An `fnmatch` for patterns without other special characters than `?`. -/
def Fnmatch.wildcard : Fnmatch where
  run := wildcardMatch
  run_ordinary := by
    intro pattern
    induction pattern with
    | nil => intro name _; cases name <;> simp [wildcardMatch]
    | cons p pattern ih =>
        intro name h
        cases name with
        | nil => simp [wildcardMatch]
        | cons c name =>
            have hp : p ≠ '?'.toUInt8 := by
              rintro rfl
              exact absurd (h _ List.mem_cons_self) (by decide)
            simp [wildcardMatch, hp, ih name fun c hc => h c (List.mem_cons_of_mem p hc)]

/-- One character of `from`, converted for the extended patterns of `fnmatch`. -/
def convertBrace (c : UInt8) : List UInt8 :=
  if c = '{'.toUInt8 then ['@'.toUInt8, '('.toUInt8]
  else if c = ','.toUInt8 then ['|'.toUInt8]
  else if c = '}'.toUInt8 then [')'.toUInt8]
  else [c]

/-- `lv2_osc_pattern_match`, with the first `len` characters of `from` as a list. -/
def oscPatternMatch (fn : Fnmatch) (from_ name : List UInt8) : Bool :=
  let nbrace := from_.count '{'.toUInt8
  let pattern := if nbrace ≠ 0 then from_.flatMap convertBrace else from_
  fn.run pattern name

lemma oscPatternMatch_of_ordinary (fn : Fnmatch) {from_ : List UInt8} (name : List UInt8)
    (h : ∀ c ∈ from_, isOrdinary c = true) :
    oscPatternMatch fn from_ name = decide (from_ = name) := by
  have hbrace : from_.count '{'.toUInt8 = 0 := by
    refine List.count_eq_zero.mpr (fun hmem => ?_)
    exact absurd (h _ hmem) (by decide)
  simp [oscPatternMatch, hbrace, fn.run_ordinary from_ name h]

/-! ## Trees of names -/

/-- `LV2_OSC_Branch`: the index of the matching entry in its table stands for `tree`, and the
argument record is returned because the callee changes it in place. -/
abbrev OscBranch (σ : Type) := OscReader → OscArg → ℕ → σ → Run (OscArg × σ)

/-- `LV2_OSC_Tree`. -/
inductive OscTree (σ : Type)
  | mk (name : List UInt8) (trees : Option (List (OscTree σ))) (branch : Option (OscBranch σ))

variable {σ : Type}

/-- `name`. -/
def OscTree.name : OscTree σ → List UInt8
  | .mk name _ _ => name

/-- `trees`. -/
def OscTree.trees : OscTree σ → Option (List (OscTree σ))
  | .mk _ trees _ => trees

/-- `branch`. -/
def OscTree.branch : OscTree σ → Option (OscBranch σ)
  | .mk _ _ branch => branch

/-- Call a branch, if there is one.  It works on a copy of the reader. -/
def callBranch (branch : Option (OscBranch σ)) (reader : OscReader) (arg : OscArg) (idx : ℕ)
    (data : σ) : Run (OscArg × σ) :=
  match branch with
  | some branch => branch reader arg idx data
  | none => .ok (arg, data)

/-- `_lv2_osc_trees_internal`, with `from` as the list of its segments between slashes: `ptr`
is `NULL` exactly at the last one. -/
def oscTreesInternal (fn : Fnmatch) (reader : OscReader) :
    List (List UInt8) → OscArg → List (OscTree σ) → σ → Run (OscArg × σ)
  | [], arg, _, data => .ok (arg, data)
  | segment :: rest, arg, trees, data =>
      trees.zipIdx.foldlM (fun (arg, data) (tree, idx) =>
        if oscPatternMatch fn segment tree.name then
          match tree.trees, rest with
          | some trees, _ :: _ => do
              let (arg, data) ← callBranch tree.branch reader arg idx data
              oscTreesInternal fn reader rest arg trees data
          | _, [] => callBranch tree.branch reader arg idx data
          | none, _ :: _ => .ok (arg, data)
        else .ok (arg, data)) (arg, data)

/-- `lv2_osc_reader_match`.  A message that cannot be read makes it take `arg->path` of the
null pointer. -/
def oscReaderMatch (fn : Fnmatch) (reader : OscReader) (len : ℕ) (trees : List (OscTree σ))
    (data : σ) : Run σ := do
  match ← reader.argBegin len with
  | none => .error .nullPointer
  | some (arg, reader) =>
      let from_ := arg.path.tail
      let (_, data) ← oscTreesInternal fn reader (from_.splitOn '/'.toUInt8) arg trees data
      return data

/-! ## The handler of a priority -/

/-- `arg->i`. -/
def OscValue.int : OscValue → Int32
  | .i v => v
  | _ => 0

/-- `arg->b`. -/
def OscValue.blob : OscValue → ℕ
  | .b addr => addr
  | _ => 0

/-- The local variables of `_priority`. -/
structure PriorityLocals where
  set : Bool
  idx : UInt32
  offx : Int32
  offy : Int32
  width : Int32
  height : Int32
  deriving DecidableEq, Repr

namespace PriorityLocals

/-- Their initial values. -/
def initial : PriorityLocals where
  set := false
  idx := 0
  offx := 0
  offy := 0
  width := Int32.ofNat widthNet
  height := Int32.ofNat heightNet

/-- `switch(idx++)` on an integer argument. -/
def storeInt32 (l : PriorityLocals) (i : Int32) : PriorityLocals :=
  let next := { l with idx := l.idx + 1 }
  if l.idx = 0 then { next with offx := i }
  else if l.idx = 1 then { next with offy := i }
  else if l.idx = 2 then { next with width := i }
  else if l.idx = 3 then { next with height := i }
  else next

/-- `tot_len`. -/
def totLen (l : PriorityLocals) : Int32 :=
  (monobusStrideForWidth l.width.toUInt32 * l.height.toUInt32).toInt32

end PriorityLocals

section Priority

variable (draw : σ → Call → Run σ) (prio : Prio)

/-- The `switch` in the loop of `_priority`. -/
def priorityStep (mem : Memory) (arg : OscArg) (l : PriorityLocals) (data : σ) :
    Run (PriorityLocals × σ) :=
  match OscType.ofByte arg.tag with
  | some .int32 => .ok (l.storeInt32 arg.val.int, data)
  | some .blob =>
      if arg.size ≥ l.totLen then do
        let data ← draw data
          (.setPixels prio l.offx l.offy l.width l.height ⟨mem, arg.val.blob⟩)
        return ({ l with set := true }, data)
      else .ok (l, data)
  | _ => .ok (l, data)

/-- The loop of `_priority`, with as much fuel as there are type tags left: every round drops
one. -/
def priorityLoop : ℕ → OscReader → OscArg → PriorityLocals → σ →
    Run (OscArg × PriorityLocals × σ)
  | fuel, reader, arg, l, data =>
      if reader.argIsEnd arg then .ok (arg, l, data)
      else match fuel with
        | 0 => .error .outOfFuel
        | fuel + 1 => do
            let (l, data) ← priorityStep draw prio reader.mem arg l data
            match ← reader.argNext arg with
            -- the next round would read `arg->type` of the null pointer
            | none => .error .nullPointer
            | some (arg, reader) => priorityLoop fuel reader arg l data

/-- `_priority`. -/
def priority : OscBranch σ := fun reader arg idx data => do
  let prio : Prio := Fin.ofNat 32 idx
  let (arg, l, data) ← priorityLoop draw prio arg.type.length reader arg .initial data
  if !l.set then
    let data ← draw data (.clrPixels prio l.offx l.offy l.width l.height)
    return (arg, data)
  else
    return (arg, data)

/-! ## The tables -/

/-- The names in `tree_priority`. -/
def priorityNames : List (List Char) :=
  [['0'], ['1'], ['2'], ['3'], ['4'], ['5'], ['6'], ['7'], ['8'], ['9'],
    ['1', '0'], ['1', '1'], ['1', '2'], ['1', '3'], ['1', '4'], ['1', '5'], ['1', '6'],
    ['1', '7'], ['1', '8'], ['1', '9'], ['2', '0'], ['2', '1'], ['2', '2'], ['2', '3'],
    ['2', '4'], ['2', '5'], ['2', '6'], ['2', '7'], ['2', '8'], ['2', '9'], ['3', '0'],
    ['3', '1']]

/-- The name of the entry of a priority. -/
def priorityName (prio : Prio) : List UInt8 := (priorityNames.getD prio []).map Char.toUInt8

/-- `tree_priority`. -/
def treePriority : List (OscTree σ) :=
  priorityNames.map fun name => .mk (name.map Char.toUInt8) none (some (priority draw))

/-- The name of the one entry of `tree_root`. -/
def rootName : List UInt8 := ['m', 'o', 'n', 'o', 'b', 'u', 's'].map Char.toUInt8

/-- `tree_root`. -/
def treeRoot : List (OscTree σ) := [.mk rootName (some (treePriority draw)) none]

/-- `_handle_osc_message`, on the bitmap of the application. -/
def handleOscMessage (fn : Fnmatch) (reader : OscReader) (len : ℕ) (state : σ) : Run σ :=
  oscReaderMatch fn reader len (treeRoot draw) state

end Priority

end MonoBus
