import MonoBus.Construction.Daemon

/-!
# Handling a message comes to an end

Getters fail only where they read outside the object.  The loop of `_priority` drops a type tag in
each round, so its fuel never runs out, whatever the bytes of the message are
(`ends_handleOscMessage`).
-/

namespace MonoBus

namespace OscReader

variable (r : OscReader)

/-! ## Getters -/

lemma onlyStrays_be32toh : OnlyStrays r.be32toh :=
  .ite (onlyStrays_ok _) ((Memory.onlyStrays_slice _ _).bind fun _ _ => onlyStrays_ok _)

lemma onlyStrays_be64toh : OnlyStrays r.be64toh :=
  .ite (onlyStrays_ok _) ((Memory.onlyStrays_slice _ _).bind fun _ _ => onlyStrays_ok _)

lemma onlyStrays_getInt32 : OnlyStrays r.getInt32 :=
  r.onlyStrays_be32toh.bind fun _ _ => onlyStrays_ok _

lemma onlyStrays_getInt64 : OnlyStrays r.getInt64 :=
  r.onlyStrays_be64toh.bind fun _ _ => onlyStrays_ok _

lemma onlyStrays_getChar : OnlyStrays r.getChar :=
  r.onlyStrays_getInt32.bind fun _ _ => onlyStrays_ok _

lemma onlyStrays_getString : OnlyStrays r.getString :=
  (Memory.onlyStrays_cstr _).bind fun _ _ => .ite (onlyStrays_ok _) (onlyStrays_ok _)

lemma onlyStrays_getBlob : OnlyStrays r.getBlob := by
  refine r.onlyStrays_getInt32.bind fun len _ => ?_
  cases len with
  | none => exact onlyStrays_ok _
  | some len => exact .ite (onlyStrays_ok _) (onlyStrays_ok _)

lemma onlyStrays_getRgba : OnlyStrays r.getRgba := by
  refine .ite (onlyStrays_ok _) ?_
  refine (Memory.onlyStrays_load _).bind fun _ _ => (Memory.onlyStrays_load _).bind fun _ _ => ?_
  exact (Memory.onlyStrays_load _).bind fun _ _ => (Memory.onlyStrays_load _).bind fun _ _ =>
    onlyStrays_ok _

/-! ## Arguments and items -/

lemma onlyStrays_argRaw (arg : OscArg) : OnlyStrays (r.argRaw arg) := by
  unfold argRaw
  cases OscType.ofByte arg.tag with
  | none => exact onlyStrays_ok _
  | some type =>
      cases type with
      | int32 => exact r.onlyStrays_getInt32.bind fun _ _ => onlyStrays_ok _
      | float => exact r.onlyStrays_be32toh.bind fun _ _ => onlyStrays_ok _
      | string | symbol => exact r.onlyStrays_getString.bind fun _ _ => onlyStrays_ok _
      | blob => exact r.onlyStrays_getBlob.bind fun _ _ => onlyStrays_ok _
      | int64 => exact r.onlyStrays_getInt64.bind fun _ _ => onlyStrays_ok _
      | double | timetag => exact r.onlyStrays_be64toh.bind fun _ _ => onlyStrays_ok _
      | char => exact r.onlyStrays_getChar.bind fun _ _ => onlyStrays_ok _
      | rgba => exact r.onlyStrays_getRgba.bind fun _ _ => onlyStrays_ok _
      | midi | true | false | nil | impulse => exact onlyStrays_ok _

lemma onlyStrays_argBegin (len : ℕ) : OnlyStrays (r.argBegin len) := by
  refine .ite (onlyStrays_ok _) ?_
  refine r.onlyStrays_getString.bind fun path _ => ?_
  cases path with
  | none => exact onlyStrays_ok _
  | some path =>
      refine (onlyStrays_getString _).bind fun type _ => ?_
      cases type with
      | none => exact onlyStrays_ok _
      | some type => exact .ite (onlyStrays_ok _) (onlyStrays_argRaw _ _)

lemma onlyStrays_itemRaw (itm : OscItem) : OnlyStrays (r.itemRaw itm) := by
  refine r.onlyStrays_getInt32.bind fun size _ => ?_
  cases size with
  | none => exact onlyStrays_ok _
  | some size => exact .ite (onlyStrays_ok _) (onlyStrays_ok _)

lemma onlyStrays_itemBegin (len : ℕ) : OnlyStrays (r.itemBegin len) := by
  refine .ite (onlyStrays_ok _) (.ite (onlyStrays_ok _) ?_)
  refine (Memory.onlyStrays_strncmpEq _ _).bind fun isBundle _ => .ite (onlyStrays_ok _) ?_
  refine (onlyStrays_be64toh _).bind fun timetag _ => ?_
  cases timetag with
  | none => exact onlyStrays_ok _
  | some timetag => exact onlyStrays_itemRaw _ _

lemma exists_of_map_eq_ok {α β : Type} {x : Run (Option α)} {f : α → β} {b : β}
    (h : (do return (← x).map f) = (.ok (some b) : Run (Option β))) :
    ∃ a, x = .ok (some a) ∧ f a = b := by
  obtain ⟨y, hx, hy⟩ := Run.bind_eq_ok.mp h
  obtain ⟨a, rfl, ha⟩ := Option.map_eq_some_iff.mp (Except.ok.inj hy)
  exact ⟨a, hx, ha⟩

/-- Loading an argument leaves the type tags and the path alone. -/
lemma frame_of_argRaw {r r' : OscReader} {arg arg' : OscArg}
    (h : r.argRaw arg = .ok (some (arg', r'))) :
    arg'.type = arg.type ∧ arg'.path = arg.path := by
  unfold argRaw at h
  cases htype : OscType.ofByte arg.tag with
  | none =>
      rw [htype] at h
      obtain ⟨rfl, -⟩ := Prod.mk.inj (Option.some.inj (Except.ok.inj h))
      exact ⟨rfl, rfl⟩
  | some type =>
      rw [htype] at h
      cases type with
      | true | false | nil | impulse =>
          obtain ⟨rfl, -⟩ := Prod.mk.inj (Option.some.inj (Except.ok.inj h))
          exact ⟨rfl, rfl⟩
      | midi =>
          obtain ⟨a, -, ha⟩ := Option.map_eq_some_iff.mp (Except.ok.inj h)
          obtain ⟨rfl, -⟩ := Prod.mk.inj ha
          exact ⟨rfl, rfl⟩
      | _ =>
          obtain ⟨a, -, ha⟩ := exists_of_map_eq_ok h
          obtain ⟨rfl, -⟩ := Prod.mk.inj ha
          exact ⟨rfl, rfl⟩

end OscReader

/-! ## Messages -/

section Messages

variable {σ : Type} {draw : σ → Call → Run σ}

lemma ends_priorityStep (hdraw : ∀ data call, Ends (draw data call)) (prio : Prio) (mem : Memory)
    (arg : OscArg) (l : PriorityLocals) (data : σ) :
    Ends (priorityStep draw prio mem arg l data) := by
  unfold priorityStep
  split
  · exact ends_ok _
  · exact .ite ((hdraw _ _).bind fun _ _ => ends_ok _) (ends_ok _)
  · exact ends_ok _

/-- Each round of the loop drops a type tag. -/
lemma ends_priorityLoop (hdraw : ∀ data call, Ends (draw data call)) (prio : Prio) :
    ∀ (fuel : ℕ) (r : OscReader) (arg : OscArg) (l : PriorityLocals) (data : σ),
      arg.type.length ≤ fuel → Ends (priorityLoop draw prio fuel r arg l data) := by
  intro fuel
  induction fuel with
  | zero =>
      intro r arg l data hfuel
      have htype : arg.type = [] := List.length_eq_zero_iff.mp (Nat.le_zero.mp hfuel)
      rw [priorityLoop, if_pos (OscReader.argIsEnd_of_nil htype)]
      exact ends_ok _
  | succ fuel ih =>
      intro r arg l data hfuel
      rw [priorityLoop]
      refine .ite (ends_ok _) ?_
      refine (ends_priorityStep hdraw prio _ _ _ _).bind fun step _ => ?_
      refine (OscReader.onlyStrays_argRaw _ _).ends.bind fun next hnext => ?_
      cases next with
      | none => simp [Ends]
      | some next =>
          have htype := (OscReader.frame_of_argRaw hnext).1
          refine ih _ _ _ _ ?_
          rw [htype, List.length_tail]
          omega

lemma ends_priority (hdraw : ∀ data call, Ends (draw data call)) (r : OscReader) (arg : OscArg)
    (idx : ℕ) (data : σ) : Ends (priority draw r arg idx data) := by
  refine (ends_priorityLoop hdraw _ _ _ _ _ _ le_rfl).bind fun res _ => ?_
  exact .ite ((hdraw _ _).bind fun _ _ => ends_ok _) (ends_ok _)

lemma ends_treePriority (hdraw : ∀ data call, Ends (draw data call)) (fn : Fnmatch)
    (r : OscReader) (segments : List (List UInt8)) (arg : OscArg) (data : σ) :
    Ends (oscTreesInternal fn r segments arg (treePriority draw) data) := by
  cases segments with
  | nil => exact ends_ok _
  | cons segment rest =>
      refine Ends.foldlM (fun s tree htree => ?_) _
      rw [zipIdx_treePriority] at htree
      obtain ⟨prio, -, rfl⟩ := List.mem_map.mp htree
      refine .ite ?_ (ends_ok _)
      cases rest with
      | nil => exact ends_priority hdraw _ _ _ _
      | cons _ _ => exact ends_ok _

/-- **Messages end.**  Whatever bytes it is given, `_handle_osc_message` returns or faults. -/
theorem ends_handleOscMessage (hdraw : ∀ data call, Ends (draw data call)) (fn : Fnmatch)
    (r : OscReader) (len : ℕ) (data : σ) : Ends (handleOscMessage draw fn r len data) := by
  refine (r.onlyStrays_argBegin len).ends.bind fun arg _ => ?_
  cases arg with
  | none => simp [Ends]
  | some arg =>
      refine Ends.bind ?_ fun _ _ => ends_ok _
      cases (arg.1.path.tail.splitOn '/'.toUInt8) with
      | nil => exact ends_ok _
      | cons segment rest =>
          refine Ends.foldlM (fun s tree htree => ?_) _
          obtain rfl : tree = (OscTree.mk rootName (some (treePriority draw)) none, 0) := by
            simpa [treeRoot] using htree
          refine .ite ?_ (ends_ok _)
          cases rest with
          | nil => exact ends_ok _
          | cons _ _ => exact (ends_ok _).bind fun _ _ => ends_treePriority hdraw fn _ _ _ _

/-- The daemon's calls fail only where a bitmap is read outside the object. -/
lemma onlyStrays_exec (state : State) (call : Call) : OnlyStrays (call.exec state) := by
  cases call with
  | setPixels prio offx offy width height blob => exact fun _ => error_of_setPixels
  | clrPixels prio offx offy width height =>
      rw [Call.exec, clrPixels_eq]
      exact onlyStrays_ok _

lemma ends_exec (state : State) (call : Call) : Ends (call.exec state) :=
  (onlyStrays_exec state call).ends

end Messages

end MonoBus
