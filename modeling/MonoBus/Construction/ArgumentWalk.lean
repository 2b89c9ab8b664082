import MonoBus.Construction.MessageReads

/-!
# The walk through the arguments of a message

The loop of `_priority` goes from an argument to the next as long as there are type tags.  Where
it goes depends on the bytes only (`ArgStep`).  A message is read inside the packet if its two
strings end there and all places that the loop comes to are read inside (`MessageInside`); and a
message that has been handled was read so.
-/

namespace MonoBus

/-! ## Places in a message -/

/-- The locals behind a round of the loop. -/
def PriorityLocals.behindArg (l : PriorityLocals) (arg : OscArg) : PriorityLocals :=
  match OscType.ofByte arg.tag with
  | some .int32 => l.storeInt32 arg.val.int
  | some .blob => if arg.size ≥ l.totLen then { l with set := true } else l
  | _ => l

/-- Where the loop of `_priority` is. -/
structure ArgPlace where
  reader : OscReader
  arg : OscArg
  locals : PriorityLocals

namespace ArgPlace

/-- The loop ends here. -/
def AtEnd (p : ArgPlace) : Prop := p.reader.argIsEnd p.arg = true

/-- What a round reads lies in the packet: the bitmap, if it is drawn, and the next argument. -/
structure Inside (p : ArgPlace) : Prop where
  bitmap : OscType.ofByte p.arg.tag = some .blob → p.arg.size ≥ p.locals.totLen →
    ∀ prio, (Call.setPixels prio p.locals.offx p.locals.offy p.locals.width p.locals.height
      ⟨p.reader.mem, p.arg.val.blob⟩).Inside
  next : p.reader.ArgInside (p.arg.type.tail.headD 0)

/-- The next argument is not cut off. -/
def Complete (p : ArgPlace) : Prop := p.reader.argNext p.arg ≠ .ok none

/-- The reader is in front of the end, which both records agree on and which lies in the object. -/
structure Within (p : ArgPlace) : Prop where
  ptr_le : p.reader.ptr ≤ p.reader.end_
  end_le : p.reader.end_ ≤ p.reader.mem.limit
  end_eq : p.arg.end_ = p.reader.end_

end ArgPlace

/-- Where the loop goes next. -/
inductive ArgStep : ArgPlace → ArgPlace → Prop
  | next {p : ArgPlace} {arg : OscArg} {reader : OscReader} : ¬ p.AtEnd →
      p.reader.argNext p.arg = .ok (some (arg, reader)) →
      ArgStep p ⟨reader, arg, p.locals.behindArg p.arg⟩

/-- All places from one on have a property. -/
def ArgPlace.All (P : ArgPlace → Prop) (p : ArgPlace) : Prop :=
  ∀ q, Relation.ReflTransGen ArgStep p q → ¬ q.AtEnd → P q

section All

variable {P : ArgPlace → Prop} {p q : ArgPlace}

lemma ArgPlace.All.next (h : p.All P) (hstep : ArgStep p q) : q.All P :=
  fun q' hq' => h q' (.head hstep hq')

lemma ArgStep.unique {q' : ArgPlace} (h : ArgStep p q) (h' : ArgStep p q') : q = q' := by
  obtain ⟨-, hnext⟩ := h
  obtain ⟨-, hnext'⟩ := h'
  rw [hnext] at hnext'
  obtain ⟨rfl, rfl⟩ := Prod.mk.inj (Option.some.inj (Except.ok.inj hnext'))
  rfl

lemma ArgPlace.all_of_atEnd (hend : p.AtEnd) : p.All P := by
  intro q hq hnot
  rcases Relation.ReflTransGen.cases_head hq with rfl | ⟨q', ⟨hgo, -⟩, -⟩
  · exact absurd hend hnot
  · exact absurd hend hgo

lemma ArgPlace.all_of_next (hp : P p) (hrest : ∀ q, ArgStep p q → q.All P) : p.All P := by
  intro q hq hnot
  rcases Relation.ReflTransGen.cases_head hq with rfl | ⟨q', hfirst, hlast⟩
  · exact hp
  · exact hrest q' hfirst q hlast hnot

end All

lemma ArgPlace.Within.next {p q : ArgPlace} (h : p.Within) (hstep : ArgStep p q) : q.Within := by
  obtain ⟨-, hnext⟩ := hstep
  obtain ⟨⟨hmem, hend, hptr⟩, hrecord⟩ := OscReader.moved_of_argRaw h.ptr_le hnext
  exact ⟨hptr, by rw [hend, hmem]; exact h.end_le, hrecord.trans (h.end_eq.trans hend.symm)⟩

/-- In front of the end the loop stops only when no type tag is left. -/
lemma ArgPlace.Within.tag_of_atEnd {p : ArgPlace} (h : p.Within) (hend : p.AtEnd) :
    p.arg.tag = 0 := by
  obtain htag | hlt := of_decide_eq_true hend
  · exact htag
  · rw [h.end_eq] at hlt
    exact absurd h.ptr_le (not_le.mpr hlt)

lemma atEnd_of_tag {reader : OscReader} {arg : OscArg} (htag : arg.tag = 0) (l : PriorityLocals) :
    ArgPlace.AtEnd ⟨reader, arg, l⟩ := decide_eq_true (.inl htag)

/-! ## The loop -/

section Loop

variable {prio : Prio} {p : ArgPlace}

lemma locals_of_priorityStep {mem : Memory} {arg : OscArg} {l l' : PriorityLocals}
    {state state' : State}
    (h : priorityStep Call.exec prio mem arg l state = .ok (l', state')) :
    l' = l.behindArg arg := by
  unfold priorityStep at h
  unfold PriorityLocals.behindArg
  cases htype : OscType.ofByte arg.tag with
  | none =>
      rw [htype] at h
      exact (Prod.mk.inj (Except.ok.inj h)).1.symm
  | some type =>
      rw [htype] at h
      cases type with
      | blob =>
          dsimp only at h ⊢
          split_ifs at h ⊢
          · obtain ⟨mid, -, h⟩ := Run.bind_eq_ok.mp h
            exact (Prod.mk.inj (Except.ok.inj h)).1.symm
          · exact (Prod.mk.inj (Except.ok.inj h)).1.symm
      | _ => exact (Prod.mk.inj (Except.ok.inj h)).1.symm

/-- A round draws at most one bitmap. -/
lemma avoids_priorityStep_iff (mem : Memory) (arg : OscArg) (l : PriorityLocals) (state : State) :
    Avoids .outOfRange (priorityStep Call.exec prio mem arg l state) ↔
      (OscType.ofByte arg.tag = some .blob → arg.size ≥ l.totLen →
        ∀ prio,
          (Call.setPixels prio l.offx l.offy l.width l.height ⟨mem, arg.val.blob⟩).Inside) := by
  unfold priorityStep
  cases htype : OscType.ofByte arg.tag with
  | none => simp
  | some type =>
      cases type with
      | blob =>
          simp only [forall_const]
          split_ifs with hsize
          · refine OscReader.avoids_bind_ok_iff.trans ((avoids_exec_iff _ _).trans ?_)
            exact ⟨fun h _ _ => h, fun h => h hsize prio⟩
          · exact iff_of_true (avoids_ok _) fun h => absurd h hsize
      | _ => simp

lemma onlyStrays_priorityStep (mem : Memory) (arg : OscArg) (l : PriorityLocals) (state : State) :
    OnlyStrays (priorityStep Call.exec prio mem arg l state) := by
  unfold priorityStep
  split
  · exact onlyStrays_ok _
  · exact .ite ((onlyStrays_exec _ _).bind fun _ _ => onlyStrays_ok _) (onlyStrays_ok _)
  · exact onlyStrays_ok _

lemma priorityLoop_succ {fuel : ℕ} {state : State} (hnot : ¬ p.AtEnd) :
    priorityLoop Call.exec prio (fuel + 1) p.reader p.arg p.locals state = (do
      let (l, state) ← priorityStep Call.exec prio p.reader.mem p.arg p.locals state
      match ← p.reader.argNext p.arg with
      | none => .error .nullPointer
      | some (arg, reader) => priorityLoop Call.exec prio fuel reader arg l state) := by
  have hend : ¬ p.reader.argIsEnd p.arg = true := hnot
  rw [priorityLoop]
  exact if_neg hend

lemma ArgPlace.Within.avoids_argNext_iff (h : p.Within) :
    Avoids .outOfRange (p.reader.argNext p.arg) ↔
      p.reader.ArgInside (p.arg.type.tail.headD 0) :=
  OscReader.avoids_argRaw_iff (h.ptr_le.trans h.end_le) h.end_le _

/-- **The loop.**  It stays inside exactly if all places that it comes to do. -/
lemma avoids_priorityLoop_iff :
    ∀ (fuel : ℕ) {p : ArgPlace} (state : State), p.Within → p.arg.type.length ≤ fuel →
      (Avoids .outOfRange (priorityLoop Call.exec prio fuel p.reader p.arg p.locals state) ↔
        p.All ArgPlace.Inside) := by
  intro fuel
  induction fuel with
  | zero =>
      intro p state _ hfuel
      have hend : p.AtEnd :=
        OscReader.argIsEnd_of_nil (List.length_eq_zero_iff.mp (Nat.le_zero.mp hfuel))
      rw [priorityLoop_of_atEnd hend]
      exact iff_of_true (avoids_ok _) (ArgPlace.all_of_atEnd hend)
  | succ fuel ih =>
      intro p state hwithin hfuel
      by_cases hend : p.AtEnd
      · rw [priorityLoop_of_atEnd hend]
        exact iff_of_true (avoids_ok _) (ArgPlace.all_of_atEnd hend)
      rw [priorityLoop_succ hend]
      have hrest {arg : OscArg} {reader : OscReader}
          (hnext : p.reader.argNext p.arg = .ok (some (arg, reader))) (state' : State) :
          Avoids .outOfRange (priorityLoop Call.exec prio fuel reader arg
            (p.locals.behindArg p.arg) state') ↔
          ArgPlace.All ArgPlace.Inside ⟨reader, arg, p.locals.behindArg p.arg⟩ := by
        refine ih state' (hwithin.next (.next hend hnext)) ?_
        rw [(OscReader.frame_of_argRaw hnext).1, List.length_tail]
        omega
      constructor
      · intro h
        have hbitmap := (avoids_priorityStep_iff _ _ _ _).mp h.left
        obtain ⟨⟨l, state'⟩, hstep⟩ := (onlyStrays_priorityStep _ _ _ _).exists_ok h.left
        obtain rfl := locals_of_priorityStep hstep
        rw [hstep, Run.ok_bind] at h
        refine ArgPlace.all_of_next ⟨hbitmap, hwithin.avoids_argNext_iff.mp h.left⟩ ?_
        rintro q ⟨-, hnext⟩
        rw [hnext] at h
        exact (hrest hnext state').mp h
      · intro hall
        have hp := hall p .refl hend
        refine Avoids.bind ((avoids_priorityStep_iff _ _ _ _).mpr hp.bitmap) ?_
        rintro ⟨l, state'⟩ hstep
        obtain rfl := locals_of_priorityStep hstep
        refine Avoids.bind (hwithin.avoids_argNext_iff.mpr hp.next) fun next hnext => ?_
        cases next with
        | none => simp [Avoids]
        | some next => exact (hrest hnext state').mpr (hall.next (.next hend hnext))

/-- If no argument is cut off either, it returns. -/
lemma exists_priorityLoop_iff :
    ∀ (fuel : ℕ) {p : ArgPlace} (state : State), p.Within → p.arg.type.length ≤ fuel →
      ((∃ res, priorityLoop Call.exec prio fuel p.reader p.arg p.locals state = .ok res) ↔
        p.All ArgPlace.Inside ∧ p.All ArgPlace.Complete) := by
  intro fuel
  induction fuel with
  | zero =>
      intro p state _ hfuel
      have hend : p.AtEnd :=
        OscReader.argIsEnd_of_nil (List.length_eq_zero_iff.mp (Nat.le_zero.mp hfuel))
      rw [priorityLoop_of_atEnd hend]
      exact iff_of_true ⟨_, rfl⟩ ⟨ArgPlace.all_of_atEnd hend, ArgPlace.all_of_atEnd hend⟩
  | succ fuel ih =>
      intro p state hwithin hfuel
      by_cases hend : p.AtEnd
      · rw [priorityLoop_of_atEnd hend]
        exact iff_of_true ⟨_, rfl⟩ ⟨ArgPlace.all_of_atEnd hend, ArgPlace.all_of_atEnd hend⟩
      have hrest {arg : OscArg} {reader : OscReader}
          (hnext : p.reader.argNext p.arg = .ok (some (arg, reader))) (state' : State) :
          (∃ res, priorityLoop Call.exec prio fuel reader arg
            (p.locals.behindArg p.arg) state' = .ok res) ↔
          ArgPlace.All ArgPlace.Inside ⟨reader, arg, p.locals.behindArg p.arg⟩ ∧
            ArgPlace.All ArgPlace.Complete ⟨reader, arg, p.locals.behindArg p.arg⟩ := by
        refine ih state' (hwithin.next (.next hend hnext)) ?_
        rw [(OscReader.frame_of_argRaw hnext).1, List.length_tail]
        omega
      constructor
      · rintro ⟨res, h⟩
        refine ⟨(avoids_priorityLoop_iff _ state hwithin hfuel).mp (.of_eq_ok h), ?_⟩
        rw [priorityLoop_succ hend] at h
        obtain ⟨⟨l, state'⟩, hstep, h⟩ := Run.bind_eq_ok.mp h
        obtain rfl := locals_of_priorityStep hstep
        obtain ⟨next, hnext, h⟩ := Run.bind_eq_ok.mp h
        cases next with
        | none => cases h
        | some next =>
            refine ArgPlace.all_of_next ?_ ?_
            · rw [ArgPlace.Complete, hnext]
              simp
            · intro q hq
              rw [← ArgStep.unique (.next hend hnext) hq]
              exact ((hrest hnext state').mp ⟨res, h⟩).2
      · rintro ⟨hinside, hcomplete⟩
        have hp := hinside p .refl hend
        obtain ⟨⟨l, state'⟩, hstep⟩ := (onlyStrays_priorityStep _ _ _ state).exists_ok
          ((avoids_priorityStep_iff _ _ _ _).mpr hp.bitmap)
        obtain rfl := locals_of_priorityStep hstep
        obtain ⟨next, hnext⟩ := (OscReader.onlyStrays_argRaw _ _).exists_ok
          (hwithin.avoids_argNext_iff.mpr hp.next)
        rw [priorityLoop_succ hend, hstep, Run.ok_bind]
        cases next with
        | none => exact absurd hnext (hcomplete p .refl hend)
        | some next =>
            have hgo : ArgStep p ⟨next.2, next.1, p.locals.behindArg p.arg⟩ := .next hend hnext
            obtain ⟨res, hloop⟩ := (hrest hnext state').mpr ⟨hinside.next hgo, hcomplete.next hgo⟩
            refine ⟨res, ?_⟩
            rw [show p.reader.argNext p.arg = .ok (some next) from hnext]
            exact hloop

lemma tag_of_priorityLoop :
    ∀ (fuel : ℕ) {p : ArgPlace} {state : State} {res : OscArg × PriorityLocals × State},
      p.Within → priorityLoop Call.exec prio fuel p.reader p.arg p.locals state = .ok res →
      res.1.tag = 0 := by
  intro fuel
  induction fuel with
  | zero =>
      intro p state res hwithin h
      rw [priorityLoop] at h
      split_ifs at h with hend
      rw [← Except.ok.inj h]
      exact hwithin.tag_of_atEnd hend
  | succ fuel ih =>
      intro p state res hwithin h
      rw [priorityLoop] at h
      split_ifs at h with hend
      · rw [← Except.ok.inj h]
        exact hwithin.tag_of_atEnd hend
      · obtain ⟨⟨l, state'⟩, hstep, h⟩ := Run.bind_eq_ok.mp h
        obtain rfl := locals_of_priorityStep hstep
        obtain ⟨next, hnext, h⟩ := Run.bind_eq_ok.mp h
        cases next with
        | none => cases h
        | some next =>
            have hgo : ArgStep p ⟨next.2, next.1, p.locals.behindArg p.arg⟩ := .next hend hnext
            exact ih (hwithin.next hgo) h

end Loop

/-! ## The handlers of the priorities -/

section Priorities

variable {r : OscReader} {arg : OscArg}

/-- The handler stays inside exactly if all places of the message do. -/
lemma avoids_priority_iff {idx : ℕ} (state : State)
    (hwithin : ArgPlace.Within ⟨r, arg, .initial⟩) :
    Avoids .outOfRange (priority Call.exec r arg idx state) ↔
      ArgPlace.All ArgPlace.Inside ⟨r, arg, .initial⟩ := by
  rw [← avoids_priorityLoop_iff arg.type.length state hwithin le_rfl]
  constructor
  · intro h
    exact h.left
  · intro h
    refine h.bind fun res _ => .ite ?_ (avoids_ok _)
    exact Avoids.bind ((avoids_exec_iff _ _).mpr trivial) fun _ _ => avoids_ok _

lemma exists_priority_iff {idx : ℕ} (state : State)
    (hwithin : ArgPlace.Within ⟨r, arg, .initial⟩) :
    (∃ res, priority Call.exec r arg idx state = .ok res) ↔
      ArgPlace.All ArgPlace.Inside ⟨r, arg, .initial⟩ ∧
        ArgPlace.All ArgPlace.Complete ⟨r, arg, .initial⟩ := by
  rw [← exists_priorityLoop_iff arg.type.length state hwithin le_rfl]
  constructor
  · rintro ⟨res, h⟩
    obtain ⟨mid, hloop, -⟩ := Run.bind_eq_ok.mp h
    exact ⟨mid, hloop⟩
  · rintro ⟨⟨arg', l, state'⟩, hloop⟩
    rw [priority, hloop, Run.ok_bind]
    dsimp only
    split_ifs
    · obtain ⟨state'', hclr⟩ := (onlyStrays_exec state' _).exists_ok
        ((avoids_exec_iff _ (.clrPixels (Fin.ofNat 32 idx) l.offx l.offy l.width l.height)).mpr
          trivial)
      exact ⟨_, by rw [hclr]; rfl⟩
    · exact ⟨_, rfl⟩

lemma tag_of_priority {idx : ℕ} {state : State} {res : OscArg × State}
    (hwithin : ArgPlace.Within ⟨r, arg, .initial⟩)
    (h : priority Call.exec r arg idx state = .ok res) : res.1.tag = 0 := by
  obtain ⟨⟨arg', l, mid⟩, hloop, h⟩ := Run.bind_eq_ok.mp h
  have htag := tag_of_priorityLoop _ hwithin hloop
  dsimp only at h
  split_ifs at h
  · obtain ⟨mid', -, h⟩ := Run.bind_eq_ok.mp h
    rw [← Except.ok.inj h]
    exact htag
  · rw [← Except.ok.inj h]
    exact htag

/-- Without a type tag a handler clears its layer and leaves the record alone. -/
lemma exists_priority_of_tag (htag : arg.tag = 0) (idx : ℕ) (state : State) :
    ∃ state', priority Call.exec r arg idx state = .ok (arg, state') := by
  have hclr := clrPixels_eq state (Fin.ofNat 32 idx) 0 0 (Int32.ofNat widthNet)
    (Int32.ofNat heightNet)
  rw [priority_of_atEnd (atEnd_of_tag htag .initial), Call.exec, hclr]
  exact ⟨_, rfl⟩

lemma exists_foldlM_of_tag (htag : arg.tag = 0) (prios : List Prio) (state : State) :
    ∃ res, prios.foldlM (fun s (prio : Prio) => priority Call.exec r s.1 prio s.2) (arg, state) =
      .ok res := by
  induction prios generalizing state with
  | nil => exact ⟨_, rfl⟩
  | cons prio prios ih =>
      obtain ⟨state', hfirst⟩ := exists_priority_of_tag (r := r) htag prio state
      obtain ⟨res, hrest⟩ := ih state'
      exact ⟨res, by rw [List.foldlM_cons, hfirst]; exact hrest⟩

/-- Only the first handler reads arguments. -/
lemma avoids_foldlM_priority_iff (hwithin : ArgPlace.Within ⟨r, arg, .initial⟩)
    (prios : List Prio) (state : State) :
    Avoids .outOfRange
        (prios.foldlM (fun s (prio : Prio) => priority Call.exec r s.1 prio s.2) (arg, state)) ↔
      (prios ≠ [] → ArgPlace.All ArgPlace.Inside ⟨r, arg, .initial⟩) := by
  cases prios with
  | nil => exact iff_of_true (avoids_ok _) fun hne => absurd rfl hne
  | cons prio prios =>
      rw [List.foldlM_cons, ← avoids_priority_iff state hwithin]
      constructor
      · exact fun h _ => h.left
      · intro h
        refine Avoids.bind (h (List.cons_ne_nil _ _)) ?_
        rintro ⟨arg', state'⟩ hfirst
        obtain ⟨res, hrest⟩ := exists_foldlM_of_tag (tag_of_priority hwithin hfirst) prios state'
        exact .of_eq_ok hrest

lemma exists_foldlM_priority_iff (hwithin : ArgPlace.Within ⟨r, arg, .initial⟩)
    (prios : List Prio) (state : State) :
    (∃ res, prios.foldlM (fun s (prio : Prio) => priority Call.exec r s.1 prio s.2) (arg, state) =
        .ok res) ↔
      (prios ≠ [] → ArgPlace.All ArgPlace.Inside ⟨r, arg, .initial⟩ ∧
        ArgPlace.All ArgPlace.Complete ⟨r, arg, .initial⟩) := by
  cases prios with
  | nil => exact iff_of_true ⟨_, rfl⟩ fun hne => absurd rfl hne
  | cons prio prios =>
      rw [List.foldlM_cons, ← exists_priority_iff state hwithin]
      constructor
      · rintro ⟨res, h⟩ _
        obtain ⟨mid, hfirst, -⟩ := Run.bind_eq_ok.mp h
        exact ⟨mid, hfirst⟩
      · intro h
        obtain ⟨⟨arg', state'⟩, hfirst⟩ := h (List.cons_ne_nil _ _)
        obtain ⟨res, hrest⟩ := exists_foldlM_of_tag (tag_of_priority hwithin hfirst) prios state'
        exact ⟨res, by rw [hfirst]; exact hrest⟩

/-- The priorities that a path comes to. -/
def reachedPrios (fn : Fnmatch) (path : List UInt8) : List Prio :=
  match path.tail.splitOn '/'.toUInt8 with
  | [root, segment] =>
      if oscPatternMatch fn root rootName then
        (List.finRange 32).filter fun prio => oscPatternMatch fn segment (priorityName prio)
      else []
  | _ => []

/-- The tables hand a message to the handlers of these priorities. -/
lemma oscTreesInternal_eq (fn : Fnmatch) (path : List UInt8) (state : State) :
    oscTreesInternal fn r (path.tail.splitOn '/'.toUInt8) arg (treeRoot Call.exec) state =
      (reachedPrios fn path).foldlM (fun s (prio : Prio) => priority Call.exec r s.1 prio s.2)
        (arg, state) := by
  have hzip : (treeRoot Call.exec).zipIdx =
      [(OscTree.mk rootName (some (treePriority Call.exec)) none, 0)] := rfl
  rw [reachedPrios]
  match path.tail.splitOn '/'.toUInt8 with
  | [] => rfl
  | [root] =>
      rw [oscTreesInternal, hzip]
      simp [OscTree.name, OscTree.branch, callBranch]
  | [root, segment] =>
      rw [oscTreesInternal_segments]
      dsimp only
      split_ifs <;> rfl
  | root :: segment :: other :: rest =>
      -- the tables have two levels
      have hdeep : oscTreesInternal fn r (segment :: other :: rest) arg (treePriority Call.exec)
          state = .ok (arg, state) := by
        rw [oscTreesInternal, zipIdx_treePriority, List.foldlM_map]
        refine (Run.foldlM_ok (g := fun b _ => b) (fun b prio _ => ?_) _).trans ?_
        · exact ite_self _
        · rw [List.foldl_fixed]
      rw [oscTreesInternal, hzip]
      simp only [List.foldlM_cons, List.foldlM_nil, OscTree.name, OscTree.trees, OscTree.branch,
        callBranch, Run.ok_bind, hdeep]
      rw [bind_pure]
      exact ite_self _

end Priorities

/-! ## The whole message -/

/-- A message is read inside the packet: its path and its type tags are terminated there, and its
first argument is inside; and if a priority is reached, all places of the loop are. -/
structure MessageInside (fn : Fnmatch) (r : OscReader) (len : ℕ) : Prop where
  path : r.mem.Terminated r.ptr
  types : ∀ path r₁, r.getString = .ok (some (path, r₁)) → r₁.mem.Terminated r₁.ptr
  first : ∀ path r₁ type r₂, r.getString = .ok (some (path, r₁)) →
    r₁.getString = .ok (some (type, r₂)) → type.headD 0 = ','.toUInt8 →
      r₂.ArgInside (type.tail.headD 0)
  args : ∀ arg r', r.argBegin len = .ok (some (arg, r')) → reachedPrios fn arg.path ≠ [] →
    ArgPlace.All ArgPlace.Inside ⟨r', arg, .initial⟩

/-- Nothing that is read of a message is cut off. -/
structure MessageComplete (fn : Fnmatch) (r : OscReader) (len : ℕ) : Prop where
  header : r.argBegin len ≠ .ok none
  args : ∀ arg r', r.argBegin len = .ok (some (arg, r')) → reachedPrios fn arg.path ≠ [] →
    ArgPlace.All ArgPlace.Complete ⟨r', arg, .initial⟩

section Message

variable {fn : Fnmatch} {r : OscReader} {len : ℕ}

lemma avoids_argBegin_iff (hend : r.end_ ≤ r.mem.limit) (hover : r.overflow len = false) :
    Avoids .outOfRange (r.argBegin len) ↔
      r.mem.Terminated r.ptr ∧
      (∀ path r₁, r.getString = .ok (some (path, r₁)) → r₁.mem.Terminated r₁.ptr) ∧
      ∀ path r₁ type r₂, r.getString = .ok (some (path, r₁)) →
        r₁.getString = .ok (some (type, r₂)) → type.headD 0 = ','.toUInt8 →
          r₂.ArgInside (type.tail.headD 0) := by
  have hfirst {path type : List UInt8} {r₁ r₂ : OscReader}
      (hpath : r.getString = .ok (some (path, r₁)))
      (htype : r₁.getString = .ok (some (type, r₂))) (arg : OscArg) :
      Avoids .outOfRange (r₂.argRaw arg) ↔ r₂.ArgInside arg.tag := by
    obtain ⟨hmem, hend₂, hptr⟩ := (OscReader.moved_of_getString hpath).trans
      (OscReader.moved_of_getString htype)
    have hlimit : r₂.end_ ≤ r₂.mem.limit := by rw [hend₂, hmem]; exact hend
    exact OscReader.avoids_argRaw_iff (hptr.trans hlimit) hlimit arg
  rw [OscReader.argBegin, hover]
  simp only [Bool.false_eq_true, if_false]
  constructor
  · intro h
    refine ⟨OscReader.avoids_getString_iff.mp h.left, fun path r₁ hpath => ?_,
      fun path r₁ type r₂ hpath htype hcomma => ?_⟩
    · rw [hpath, Run.ok_bind] at h
      exact OscReader.avoids_getString_iff.mp h.left
    · rw [hpath] at h
      simp only [Run.ok_bind, htype, hcomma, ne_eq, not_true_eq_false, if_false] at h
      exact (hfirst hpath htype _).mp h
  · rintro ⟨hstart, htypes, hargs⟩
    refine Avoids.bind (OscReader.avoids_getString_iff.mpr hstart) fun path hpath => ?_
    cases path with
    | none => exact avoids_ok _
    | some path =>
        refine Avoids.bind (OscReader.avoids_getString_iff.mpr (htypes _ _ hpath)) ?_
        intro type htype
        cases type with
        | none => exact avoids_ok _
        | some type =>
            dsimp only
            split_ifs with hcomma
            · exact avoids_ok _
            · exact (hfirst hpath htype _).mpr (hargs _ _ _ _ hpath htype (not_not.mp hcomma))

/-- Behind the first argument the record and the reader agree on the end. -/
lemma within_of_argBegin (hend : r.end_ ≤ r.mem.limit)
    (hsize : r.end_ = addPtr r.ptr len) {arg : OscArg} {r' : OscReader}
    (h : r.argBegin len = .ok (some (arg, r'))) : ArgPlace.Within ⟨r', arg, .initial⟩ := by
  unfold OscReader.argBegin at h
  split_ifs at h
  · simp at h
  obtain ⟨path, hpath, h⟩ := Run.bind_eq_ok.mp h
  cases path with
  | none => simp at h
  | some path =>
      obtain ⟨type, htype, h⟩ := Run.bind_eq_ok.mp h
      cases type with
      | none => simp at h
      | some type =>
          dsimp only at h
          split_ifs at h
          · simp at h
          have hstrings := (OscReader.moved_of_getString hpath).trans
            (OscReader.moved_of_getString htype)
          obtain ⟨hraw, hrecord⟩ := OscReader.moved_of_argRaw hstrings.ptr_le h
          obtain ⟨hmem, hend', hptr⟩ := hstrings.trans hraw
          exact ⟨hptr, by rw [hend', hmem]; exact hend, hrecord.trans (by rw [hend', hsize])⟩

/-- **Messages.**  Handling a message stays inside exactly if the message is read inside. -/
theorem avoids_handleOscMessage_iff (hend : r.end_ ≤ r.mem.limit)
    (hsize : r.end_ = addPtr r.ptr len) (state : State) :
    Avoids .outOfRange (handleOscMessage Call.exec fn r len state) ↔ MessageInside fn r len := by
  have hover : r.overflow len = false := by simp [OscReader.overflow, hsize]
  have hbegin := avoids_argBegin_iff hend hover
  have hargs {arg : OscArg} {r' : OscReader} (harg : r.argBegin len = .ok (some (arg, r'))) :
      Avoids .outOfRange (handleOscMessage Call.exec fn r len state) ↔
        (reachedPrios fn arg.path ≠ [] →
          ArgPlace.All ArgPlace.Inside ⟨r', arg, .initial⟩) := by
    rw [handleOscMessage, oscReaderMatch, harg, Run.ok_bind,
      ← avoids_foldlM_priority_iff (within_of_argBegin hend hsize harg) _ state,
      ← oscTreesInternal_eq]
    exact OscReader.avoids_bind_ok_iff
  constructor
  · intro h
    obtain ⟨hpath, htypes, hfirst⟩ := hbegin.mp h.left
    exact ⟨hpath, htypes, hfirst, fun arg r' harg => (hargs harg).mp h⟩
  · intro h
    have havoids := hbegin.mpr ⟨h.path, h.types, h.first⟩
    obtain ⟨arg, harg⟩ := (r.onlyStrays_argBegin len).exists_ok havoids
    cases arg with
    | none =>
        rw [handleOscMessage, oscReaderMatch, harg]
        simp [Avoids]
    | some arg => exact (hargs harg).mpr (h.args _ _ harg)

/-- It returns exactly if nothing that is read is cut off either. -/
theorem exists_handleOscMessage_iff (hend : r.end_ ≤ r.mem.limit)
    (hsize : r.end_ = addPtr r.ptr len) (state : State) :
    (∃ state', handleOscMessage Call.exec fn r len state = .ok state') ↔
      MessageInside fn r len ∧ MessageComplete fn r len := by
  have hargs {arg : OscArg} {r' : OscReader} (harg : r.argBegin len = .ok (some (arg, r'))) :
      (∃ state', handleOscMessage Call.exec fn r len state = .ok state') ↔
        (reachedPrios fn arg.path ≠ [] →
          ArgPlace.All ArgPlace.Inside ⟨r', arg, .initial⟩ ∧
            ArgPlace.All ArgPlace.Complete ⟨r', arg, .initial⟩) := by
    rw [handleOscMessage, oscReaderMatch, harg, Run.ok_bind,
      ← exists_foldlM_priority_iff (within_of_argBegin hend hsize harg) _ state,
      ← oscTreesInternal_eq]
    constructor
    · rintro ⟨state', h⟩
      obtain ⟨res, hrun, -⟩ := Run.bind_eq_ok.mp h
      exact ⟨res, hrun⟩
    · rintro ⟨res, hrun⟩
      exact ⟨res.2, Run.bind_eq_ok.mpr ⟨res, hrun, rfl⟩⟩
  constructor
  · rintro ⟨state', h⟩
    refine ⟨(avoids_handleOscMessage_iff hend hsize state).mp (.of_eq_ok h), ?_, ?_⟩
    · intro hnone
      rw [handleOscMessage, oscReaderMatch, hnone] at h
      cases h
    · exact fun arg r' harg hne => ((hargs harg).mp ⟨state', h⟩ hne).2
  · rintro ⟨hinside, hcomplete⟩
    have havoids := (avoids_handleOscMessage_iff hend hsize state).mpr hinside
    obtain ⟨arg, harg⟩ := (r.onlyStrays_argBegin len).exists_ok havoids.left
    cases arg with
    | none => exact absurd harg hcomplete.header
    | some arg =>
        exact (hargs harg).mpr fun hne =>
          ⟨hinside.args _ _ harg hne, hcomplete.args _ _ harg hne⟩

end Message

end MonoBus
