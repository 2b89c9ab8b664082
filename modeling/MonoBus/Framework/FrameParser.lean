import MonoBus.Framework.Stuffing

/-!
# Parsing a stream of frames

`splitFrames` cuts a stream at its flags and `destuff` reads a stuffed payload.  Both refuse what
no sender writes, so each accepts exactly the streams of its form (`splitFrames_eq_some_iff`,
`destuff_eq_some_iff`): a parser built from the two is sound and complete.
-/

namespace MonoBus

/-! ## Bodies between flags -/

section Split

variable {α : Type*} [DecidableEq α] (flag : α)

/-- The bodies of a stream of frames.  The first argument is the part of a body that has been read,
`none` between two frames. -/
def splitFrames : Option (List α) → List α → Option (List (List α))
  | none, [] => some []
  | some _, [] => none
  | none, b :: xs => if b = flag then splitFrames (some []) xs else none
  | some body, b :: xs =>
      if b = flag then (splitFrames none xs).map (body :: ·)
      else splitFrames (some (body ++ [b])) xs

variable {flag}

/-- The rest of a body, up to its flag. -/
lemma splitFrames_body {body more : List α} (hmore : flag ∉ more) (xs : List α) :
    splitFrames flag (some body) (more ++ flag :: xs) =
      (splitFrames flag none xs).map ((body ++ more) :: ·) := by
  induction more generalizing body with
  | nil => simp [splitFrames]
  | cons b more ih =>
      have hb : b ≠ flag := fun h => hmore (h ▸ List.mem_cons_self)
      rw [List.cons_append, splitFrames, if_neg hb,
        ih fun h => hmore (List.mem_cons_of_mem b h), List.append_assoc, List.singleton_append]

lemma splitFrames_delimit {body : List α} (hbody : flag ∉ body) (xs : List α) :
    splitFrames flag none (delimit flag body ++ xs) =
      (splitFrames flag none xs).map (body :: ·) := by
  rw [delimit, List.cons_append, List.append_assoc, List.singleton_append, splitFrames,
    if_pos rfl, splitFrames_body hbody, List.nil_append]

/-- Where the rest of a body is read, it ends at a flag. -/
lemma exists_of_splitFrames_some {body xs : List α} {bodies : List (List α)}
    (h : splitFrames flag (some body) xs = some bodies) :
    ∃ more rest bodies', flag ∉ more ∧ xs = more ++ flag :: rest ∧
      bodies = (body ++ more) :: bodies' ∧ splitFrames flag none rest = some bodies' := by
  induction xs generalizing body with
  | nil => simp [splitFrames] at h
  | cons b xs ih =>
      rw [splitFrames] at h
      split_ifs at h with hb
      · obtain ⟨bodies', hrest, rfl⟩ := Option.map_eq_some_iff.mp h
        exact ⟨[], xs, bodies', by simp, by rw [hb]; rfl, by simp, hrest⟩
      · obtain ⟨more, rest, bodies', hmore, rfl, rfl, hrest⟩ := ih h
        refine ⟨b :: more, rest, bodies', ?_, rfl, by simp, hrest⟩
        rw [List.mem_cons, not_or]
        exact ⟨fun h => hb h.symm, hmore⟩

/-- **Splitting a stream.**  It succeeds on streams of frames with flag-free bodies and on no other
stream. -/
theorem splitFrames_eq_some_iff {xs : List α} {bodies : List (List α)} :
    splitFrames flag none xs = some bodies ↔
      (∀ body ∈ bodies, flag ∉ body) ∧ xs = bodies.flatMap (delimit flag) := by
  constructor
  · intro h
    induction bodies generalizing xs with
    | nil =>
        cases xs with
        | nil => exact ⟨by simp, rfl⟩
        | cons b xs =>
            rw [splitFrames] at h
            split_ifs at h
            obtain ⟨_, _, _, -, -, hnil, -⟩ := exists_of_splitFrames_some h
            cases hnil
    | cons body bodies ih =>
        cases xs with
        | nil => simp [splitFrames] at h
        | cons b xs =>
            rw [splitFrames] at h
            split_ifs at h with hb
            obtain ⟨more, rest, bodies', hmore, rfl, hcons, hrest⟩ := exists_of_splitFrames_some h
            obtain ⟨rfl, rfl⟩ := List.cons.inj hcons
            obtain ⟨hfree, rfl⟩ := ih hrest
            refine ⟨List.forall_mem_cons.mpr ⟨hmore, hfree⟩, ?_⟩
            simp [delimit, hb]
  · rintro ⟨hfree, rfl⟩
    induction bodies with
    | nil => rfl
    | cons body bodies ih =>
        rw [List.forall_mem_cons] at hfree
        rw [List.flatMap_cons, splitFrames_delimit hfree.1, ih hfree.2]
        rfl

end Split

/-! ## Stuffed payloads -/

namespace EscapeCode

variable {α : Type*} [DecidableEq α] (c : EscapeCode α)

/-- The payload of a body, if the body is stuffed. -/
def destuff : List α → Option (List α)
  | [] => some []
  | [b] => if b = c.esc ∨ b = c.flag then none else some [b]
  | b :: d :: rest =>
      if b = c.esc then
        if d = c.markFlag then (destuff rest).map (c.flag :: ·)
        else if d = c.markEsc then (destuff rest).map (c.esc :: ·)
        else none
      else if b = c.flag then none
      else (destuff (d :: rest)).map (b :: ·)

lemma destuff_other {b : α} (hesc : b ≠ c.esc) (hflag : b ≠ c.flag) (xs : List α) :
    c.destuff (b :: xs) = (c.destuff xs).map (b :: ·) := by
  cases xs <;> simp [destuff, hesc, hflag]

lemma destuff_stuffOne_append (b : α) (xs : List α) :
    c.destuff (c.stuffOne b ++ xs) = (c.destuff xs).map (b :: ·) := by
  unfold stuffOne
  split_ifs with hflag hesc
  · simp [destuff, hflag]
  · simp [destuff, hesc, c.markFlag_ne_markEsc.symm]
  · exact c.destuff_other hesc hflag xs

@[simp] lemma destuff_stuff (bs : List α) : c.destuff (c.stuff bs) = some bs := by
  induction bs with
  | nil => rfl
  | cons b bs ih => rw [stuff_cons, destuff_stuffOne_append, ih, Option.map_some]

/-- What is read was stuffed. -/
lemma eq_stuff_of_destuff {xs bs : List α} (h : c.destuff xs = some bs) : xs = c.stuff bs := by
  induction xs using destuff.induct c generalizing bs with
  | case1 =>
      obtain rfl := Option.some.inj h
      rfl
  | case2 b hb => simp [destuff, hb] at h
  | case3 b hb =>
      rw [destuff, if_neg hb] at h
      obtain rfl := Option.some.inj h
      rw [not_or] at hb
      rw [stuff_singleton, c.stuffOne_of_ne hb.2 hb.1]
  | case4 rest ih =>
      rw [destuff, if_pos rfl, if_pos rfl] at h
      obtain ⟨bs', hbs', rfl⟩ := Option.map_eq_some_iff.mp h
      rw [ih hbs']
      simp [stuffOne]
  | case5 rest hmark ih =>
      rw [destuff, if_pos rfl, if_neg hmark, if_pos rfl] at h
      obtain ⟨bs', hbs', rfl⟩ := Option.map_eq_some_iff.mp h
      rw [ih hbs']
      simp [stuffOne, c.esc_ne_flag]
  | case6 d rest hmark hmark' =>
      rw [destuff, if_pos rfl, if_neg hmark, if_neg hmark'] at h
      cases h
  | case7 d rest hesc =>
      rw [destuff, if_neg hesc, if_pos rfl] at h
      cases h
  | case8 b d rest hesc hflag ih =>
      rw [destuff, if_neg hesc, if_neg hflag] at h
      obtain ⟨bs', hbs', rfl⟩ := Option.map_eq_some_iff.mp h
      rw [ih hbs', stuff_cons, c.stuffOne_of_ne hflag hesc]
      rfl

/-- **Reading a stuffed payload.**  It succeeds on stuffed payloads and on nothing else. -/
theorem destuff_eq_some_iff {xs bs : List α} : c.destuff xs = some bs ↔ xs = c.stuff bs :=
  ⟨c.eq_stuff_of_destuff, fun h => h ▸ c.destuff_stuff bs⟩

end EscapeCode

end MonoBus
