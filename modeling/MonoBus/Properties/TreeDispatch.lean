import MonoBus.Construction.MessageEnds

/-!
# Which branches of a tree a message is handed to

`_lv2_osc_trees_internal` matches a path segment by segment and calls branches on its way down.
`treeNodes` lists the entries of all tables, each in front of those below it, whatever the
path; the message is handed to those of them whose names match the front of the path and which
are at its end or have a table below them, in this order (`oscReaderMatch_eq_calls`).
-/

namespace MonoBus

variable {σ : Type}

/-! ## The entries of a tree -/

/-- An entry of a table: the names on the way to it, its place in its table, whether there is a
table below it, and what it calls. -/
structure TreeNode (σ : Type) where
  names : List (List UInt8)
  idx : ℕ
  inner : Bool
  branch : Option (OscBranch σ)

/-- An entry, seen from one table higher. -/
def TreeNode.below (name : List UInt8) (node : TreeNode σ) : TreeNode σ :=
  { node with names := name :: node.names }

/-- The entries of the tables up to a depth, each in front of those below it. -/
def treeNodes : ℕ → List (OscTree σ) → List (TreeNode σ)
  | 0, _ => []
  | depth + 1, trees => trees.zipIdx.flatMap fun (tree, idx) =>
      ⟨[tree.name], idx, tree.trees.isSome, tree.branch⟩ ::
        (treeNodes depth (tree.trees.getD [])).map (TreeNode.below tree.name)

/-- The names match the first segments of a path, one by one. -/
def namesMatch (fn : Fnmatch) : List (List UInt8) → List (List UInt8) → Bool
  | _, [] => true
  | [], _ :: _ => false
  | segment :: segments, name :: names =>
      oscPatternMatch fn segment name && namesMatch fn segments names

/-- The path comes to an entry, and either ends there or can go on. -/
def TreeNode.reached (fn : Fnmatch) (segments : List (List UInt8)) (node : TreeNode σ) : Bool :=
  namesMatch fn segments node.names &&
    (node.names.length == segments.length || node.inner)

def reachedNodes (fn : Fnmatch) (segments : List (List UInt8)) (trees : List (OscTree σ)) :
    List (TreeNode σ) :=
  (treeNodes segments.length trees).filter (TreeNode.reached fn segments)

def callNodes (reader : OscReader) (nodes : List (TreeNode σ)) (arg : OscArg) (data : σ) :
    Run (OscArg × σ) :=
  nodes.foldlM (fun (arg, data) node => callBranch node.branch reader arg node.idx data)
    (arg, data)

/-! ## One table -/

section Tables

variable {fn : Fnmatch} {reader : OscReader} {segment : List UInt8}
  {segments : List (List UInt8)}

lemma callNodes_append (nodes nodes' : List (TreeNode σ)) (arg : OscArg) (data : σ) :
    callNodes reader (nodes ++ nodes') arg data = (do
      let (arg, data) ← callNodes reader nodes arg data
      callNodes reader nodes' arg data) := by
  rw [callNodes, List.foldlM_append]
  rfl

lemma callNodes_singleton (node : TreeNode σ) (arg : OscArg) (data : σ) :
    callNodes reader [node] arg data = callBranch node.branch reader arg node.idx data := by
  rw [callNodes, List.foldlM_cons]
  exact Run.bind_ok _

lemma callNodes_flatMap {α : Type} (f : α → List (TreeNode σ)) (l : List α) (arg : OscArg)
    (data : σ) :
    callNodes reader (l.flatMap f) arg data =
      l.foldlM (fun (arg, data) a => callNodes reader (f a) arg data) (arg, data) := by
  induction l generalizing arg data with
  | nil => rfl
  | cons a l ih =>
      rw [List.flatMap_cons, callNodes_append, List.foldlM_cons]
      refine bind_congr fun res => ?_
      exact ih res.1 res.2

lemma reached_below {name : List UInt8} (node : TreeNode σ) :
    (node.below name).reached fn (segment :: segments) =
      (oscPatternMatch fn segment name && node.reached fn segments) := by
  simp [TreeNode.reached, TreeNode.below, namesMatch, Bool.and_assoc]

/-- Without a match nothing below the entry is reached. -/
lemma filter_reached_of_ne {tree : OscTree σ} (idx : ℕ)
    (h : oscPatternMatch fn segment tree.name = false) :
    ((⟨[tree.name], idx, tree.trees.isSome, tree.branch⟩ ::
      (treeNodes segments.length (tree.trees.getD [])).map (TreeNode.below tree.name)).filter
        (TreeNode.reached fn (segment :: segments))) = [] := by
  rw [List.filter_eq_nil_iff]
  intro node hnode
  rcases List.mem_cons.mp hnode with rfl | hnode
  · simp [TreeNode.reached, namesMatch, h]
  · obtain ⟨node, -, rfl⟩ := List.mem_map.mp hnode
    simp [reached_below, h]

/-- With one, the path goes on below it. -/
lemma filter_reached_of_match {tree : OscTree σ} (idx : ℕ)
    (h : oscPatternMatch fn segment tree.name = true) :
    ((⟨[tree.name], idx, tree.trees.isSome, tree.branch⟩ ::
      (treeNodes segments.length (tree.trees.getD [])).map (TreeNode.below tree.name)).filter
        (TreeNode.reached fn (segment :: segments))) =
      (if segments = [] ∨ tree.trees.isSome then
        [⟨[tree.name], idx, tree.trees.isSome, tree.branch⟩] else []) ++
        (reachedNodes fn segments (tree.trees.getD [])).map (TreeNode.below tree.name) := by
  have hbelow : ((treeNodes segments.length (tree.trees.getD [])).map
      (TreeNode.below tree.name)).filter (TreeNode.reached fn (segment :: segments)) =
      (reachedNodes fn segments (tree.trees.getD [])).map (TreeNode.below tree.name) := by
    rw [List.filter_map, reachedNodes]
    congr 2
    funext node
    rw [Function.comp_apply, reached_below, h, Bool.true_and]
  have hself : TreeNode.reached fn (segment :: segments)
      ⟨[tree.name], idx, tree.trees.isSome, tree.branch⟩ =
        decide (segments = [] ∨ tree.trees.isSome) := by
    cases segments <;> simp [TreeNode.reached, namesMatch, h]
  rw [List.filter_cons, hself, hbelow]
  split_ifs <;> simp_all

lemma callNodes_map_below (name : List UInt8) (nodes : List (TreeNode σ)) (arg : OscArg)
    (data : σ) :
    callNodes reader (nodes.map (TreeNode.below name)) arg data =
      callNodes reader nodes arg data := by
  rw [callNodes, callNodes, List.foldlM_map]
  rfl

end Tables

/-- **The traversal.**  It calls the branches of the entries that are reached, in their order. -/
theorem oscTreesInternal_eq_callNodes (fn : Fnmatch) (reader : OscReader)
    (segments : List (List UInt8)) : ∀ (trees : List (OscTree σ)) (arg : OscArg) (data : σ),
    oscTreesInternal fn reader segments arg trees data =
      callNodes reader (reachedNodes fn segments trees) arg data := by
  induction segments with
  | nil =>
      intro trees arg data
      rfl
  | cons segment segments ih =>
      intro trees arg data
      rw [reachedNodes, List.length_cons, treeNodes, List.filter_flatMap, callNodes_flatMap,
        oscTreesInternal]
      congr 1
      funext state entry
      obtain ⟨arg, data⟩ := state
      obtain ⟨tree, idx⟩ := entry
      dsimp only
      cases h : oscPatternMatch fn segment tree.name with
      | false =>
          rw [if_neg (by decide), filter_reached_of_ne idx h]
          rfl
      | true =>
          rw [if_pos rfl, filter_reached_of_match idx h, callNodes_append]
          simp only [callNodes_map_below]
          cases segments with
          | nil =>
              rw [if_pos (.inl rfl), callNodes_singleton]
              -- the path ends here, whether there is a table below or not
              cases htrees : tree.trees <;> exact (Run.bind_ok _).symm
          | cons next segments =>
              cases htrees : tree.trees with
              | none => rfl
              | some trees =>
                  rw [if_pos (.inr rfl), callNodes_singleton]
                  refine bind_congr fun res => ?_
                  exact ih trees res.1 res.2

lemma namesMatch_iff {fn : Fnmatch} {segments names : List (List UInt8)} :
    namesMatch fn segments names = true ↔
      ∃ front behind, segments = front ++ behind ∧
        List.Forall₂ (fun segment name => oscPatternMatch fn segment name = true) front names := by
  induction names generalizing segments with
  | nil => simp [namesMatch]
  | cons name names ih =>
      cases segments with
      | nil =>
          rw [namesMatch]
          refine iff_of_false (by decide) ?_
          rintro ⟨front, behind, hnil, h⟩
          rw [(List.append_eq_nil_iff.mp hnil.symm).1] at h
          cases h
      | cons segment segments =>
          rw [namesMatch, Bool.and_eq_true, ih]
          constructor
          · rintro ⟨hname, front, behind, rfl, h⟩
            exact ⟨segment :: front, behind, rfl, .cons hname h⟩
          · rintro ⟨front, behind, heq, h⟩
            cases h with
            | cons hname h =>
                obtain ⟨rfl, rfl⟩ := List.cons.inj heq
                exact ⟨hname, _, behind, rfl, h⟩

/-! ## A message -/

/-- The path that is read of a packet that `lv2_osc_reader_is_message` takes for a message. -/
lemma exists_path_of_isMessage {reader r : OscReader} {len : ℕ} {arg : OscArg}
    (hmessage : reader.isMessage = .ok true)
    (hread : reader.argBegin len = .ok (some (arg, r))) :
    ∃ path, arg.path = '/'.toUInt8 :: path := by
  obtain ⟨b, hload, hb⟩ := Run.bind_eq_ok.mp hmessage
  have hslash : b = '/'.toUInt8 := of_decide_eq_true (Except.ok.inj hb)
  unfold OscReader.argBegin at hread
  split_ifs at hread
  · simp at hread
  obtain ⟨first, hfirst, hread⟩ := Run.bind_eq_ok.mp hread
  cases first with
  | none => simp at hread
  | some first =>
      obtain ⟨second, -, hread⟩ := Run.bind_eq_ok.mp hread
      cases second with
      | none => simp at hread
      | some second =>
          dsimp only at hread
          split_ifs at hread
          · simp at hread
          rw [(OscReader.frame_of_argRaw hread).2]
          -- the path is the C string at the byte that has been compared
          obtain ⟨str, hstr, hpadded⟩ := Run.bind_eq_ok.mp hfirst
          dsimp only at hpadded
          split_ifs at hpadded
          · simp at hpadded
          obtain rfl := Option.some.inj (Except.ok.inj hpadded)
          rw [hslash] at hload
          exact Memory.exists_cons_of_cstr hstr hload (by decide)

/-- **Dispatch.**  A message that can be read is handed to the entries that its path comes to:
those whose names match the segments behind its leading slash one by one, and that are at the end
of the path or have a table below them.  They are called in the order of the tables, each in front
of those below it, and all of them with the one argument record. -/
theorem oscReaderMatch_eq_calls (fn : Fnmatch) (reader : OscReader) (len : ℕ)
    (trees : List (OscTree σ)) (data : σ) (hmessage : reader.isMessage = .ok true) :
    oscReaderMatch fn reader len trees data = (do
      match ← reader.argBegin len with
      | none => .error .nullPointer
      | some (arg, reader) => do
          let segments := arg.path.tail.splitOn '/'.toUInt8
          let (_, data) ← callNodes reader (reachedNodes fn segments trees) arg data
          return data) ∧
    (∀ arg r, reader.argBegin len = .ok (some (arg, r)) →
      ∃ path, arg.path = '/'.toUInt8 :: path) ∧
    ∀ segments, ∀ node : TreeNode σ, node ∈ reachedNodes fn segments trees ↔
      node ∈ treeNodes segments.length trees ∧
        (∃ front behind, segments = front ++ behind ∧
          List.Forall₂ (fun segment name => oscPatternMatch fn segment name = true) front
            node.names) ∧
        (node.names.length = segments.length ∨ node.inner = true) := by
  refine ⟨?_, fun arg r hread => exists_path_of_isMessage hmessage hread, ?_⟩
  · rw [oscReaderMatch]
    refine bind_congr fun res => ?_
    cases res with
    | none => rfl
    | some res =>
        obtain ⟨arg, reader⟩ := res
        simp only [oscTreesInternal_eq_callNodes]
  · intro segments node
    rw [reachedNodes, List.mem_filter, TreeNode.reached, Bool.and_eq_true, namesMatch_iff,
      Bool.or_eq_true, beq_iff_eq]

/-- A branch that records the place of its entry. -/
def recordPlace (depth : ℕ) : OscBranch (List (ℕ × ℕ)) := fun _ arg idx calls =>
  .ok (arg, calls ++ [(depth, idx)])

/-- A table with another one below each of its two entries. -/
def twoLevels : List (OscTree (List (ℕ × ℕ))) :=
  let below := [.mk ['b'.toUInt8] none (some (recordPlace 2)),
    .mk ['c'.toUInt8] none (some (recordPlace 2))]
  [.mk ['a'.toUInt8] (some below) (some (recordPlace 1)), .mk ['d'.toUInt8] (some below) none]

/-- The path `/?/c` comes to both of the tables below. -/
theorem oscReaderMatch_eq_calls_bothTables :
    oscReaderMatch .wildcard
      (Packet.placed (OscMessage.mk ⟨['/', '?', '/', 'c'].map Char.toUInt8, by decide⟩ []).encode
        (by decide)).reader 12 twoLevels [] = .ok [(1, 0), (2, 1), (2, 1)] := by
  refine (oscReaderMatch_eq_calls _ _ _ _ _ ?_).1.trans ?_
  · rfl
  · rfl

end MonoBus
