import MonoBus.Framework.FrameReader

/-!
# Frames that are cut short

A sender that gives up a frame in the middle sends it once more from its start.  A reader does not
know of the cut: it goes on where it stands.  `read` is that reader, symbol by symbol.  Whatever
the cuts, it is between two frames again behind the first frame that is complete
(`read_frame_place`), so a cut costs no other message (`read_resent`).  What one cut costs depends
on its place (`received_eq`), and it costs nothing at three places only (`received_iff`).
-/

namespace MonoBus

/-- Where a reader stands: between two frames, or in a frame, which has started with a flag or not,
behind what it has read of it and possibly behind an escape symbol. -/
inductive FramePlace (α : Type*)
  | between
  | inside (whole : Bool) (out : List α) (escaped : Bool)
  deriving DecidableEq

/-- Lists of one element at most make up a list of their length only if each has its element. -/
lemma flatMap_eq_map_iff {β γ : Type*} {f : β → List γ} {g : β → γ} {xs : List β}
    (h : ∀ x ∈ xs, (f x).length ≤ 1) : xs.flatMap f = xs.map g ↔ ∀ x ∈ xs, f x = [g x] := by
  induction xs with
  | nil => simp
  | cons x xs ih =>
      rw [List.forall_mem_cons] at h
      rw [List.forall_mem_cons, ← ih h.2, List.flatMap_cons, List.map_cons]
      constructor
      · intro heq
        match hx : f x with
        | [] =>
            -- then the rest would be one element short
            have hle : (xs.flatMap f).length ≤ xs.length := by
              rw [List.length_flatMap]
              exact (List.sum_le_card_nsmul _ 1 (by simpa using h.2)).trans (by simp)
            rw [hx, List.nil_append] at heq
            rw [heq, List.length_cons, List.length_map] at hle
            omega
        | y :: ys =>
            obtain rfl : ys = [] := List.length_eq_zero_iff.mp (by
              have hone := h.1
              rw [hx, List.length_cons] at hone
              omega)
            rw [hx, List.singleton_append] at heq
            obtain ⟨rfl, hrest⟩ := List.cons.inj heq
            exact ⟨rfl, hrest⟩
      · rintro ⟨hx, hrest⟩
        rw [hx, hrest, List.singleton_append]

namespace EscapeCode

variable {α : Type*} [DecidableEq α] (c : EscapeCode α)

/-- The frame of a payload. -/
def frame (bs : List α) : List α := delimit c.flag (c.stuff bs)

/-! ## The reader -/

/-- A symbol of a body. -/
def stepBody (whole : Bool) (out : List α) (b : α) : FramePlace α × List (List α) :=
  if b = c.esc then (.inside whole out true, [])
  else if b = c.flag then (.between, if whole = true ∧ out ≠ [] then [out] else [])
  else (.inside whole (out ++ [b]) false, [])

/-- One symbol: the place behind it, and the payload that it completes. -/
def step : FramePlace α → α → FramePlace α × List (List α)
  | .between, b => if b = c.flag then (.inside true [] false, []) else c.stepBody false [] b
  | .inside whole out true, d => (.inside whole (out ++ c.unmark d) false, [])
  | .inside whole out false, b => c.stepBody whole out b

/-- Some symbols. -/
def read : FramePlace α → List α → FramePlace α × List (List α)
  | p, [] => (p, [])
  | p, b :: bs =>
      let (p, done) := c.step p b
      let (p, more) := read p bs
      (p, done ++ more)

@[simp] lemma read_nil (p : FramePlace α) : c.read p [] = (p, []) := rfl

lemma read_cons (p : FramePlace α) (b : α) (bs : List α) :
    c.read p (b :: bs) =
      ((c.read (c.step p b).1 bs).1, (c.step p b).2 ++ (c.read (c.step p b).1 bs).2) := rfl

lemma read_append (p : FramePlace α) (xs ys : List α) :
    c.read p (xs ++ ys) =
      ((c.read (c.read p xs).1 ys).1, (c.read p xs).2 ++ (c.read (c.read p xs).1 ys).2) := by
  induction xs generalizing p with
  | nil => rfl
  | cons b xs ih => rw [List.cons_append, read_cons, ih, read_cons, List.append_assoc]

/-! ## Code words and frames -/

section Words

variable {whole : Bool} {out : List α}

lemma step_esc : c.step (.inside whole out false) c.esc = (.inside whole out true, []) :=
  if_pos rfl

lemma step_flag : c.step (.inside whole out false) c.flag =
    (.between, if whole = true ∧ out ≠ [] then [out] else []) := by
  rw [step, stepBody, if_neg c.esc_ne_flag.symm, if_pos rfl]

lemma step_other {b : α} (hesc : b ≠ c.esc) (hflag : b ≠ c.flag) :
    c.step (.inside whole out false) b = (.inside whole (out ++ [b]) false, []) := by
  rw [step, stepBody, if_neg hesc, if_neg hflag]

lemma step_between_flag : c.step .between c.flag = (.inside true [] false, []) := if_pos rfl

lemma step_between_other {b : α} (hflag : b ≠ c.flag) :
    c.step .between b = c.step (.inside false [] false) b := if_neg hflag

lemma unmark_flag : c.unmark c.flag = [] := by
  rw [unmark, if_neg c.markFlag_ne_flag.symm, if_neg c.markEsc_ne_flag.symm]

/-- A flag behind an escape symbol is taken for its mark, and stands for nothing. -/
lemma step_escaped_flag :
    c.step (.inside whole out true) c.flag = (.inside whole out false, []) := by
  rw [step, unmark_flag, List.append_nil]

lemma read_stuffOne (b : α) :
    c.read (.inside whole out false) (c.stuffOne b) = (.inside whole (out ++ [b]) false, []) := by
  unfold stuffOne
  split_ifs with hflag hesc
  · rw [read_cons, step_esc, read_cons, step, unmark_markFlag, read_nil, hflag]
    rfl
  · rw [read_cons, step_esc, read_cons, step, unmark_markEsc, read_nil, hesc]
    rfl
  · rw [read_cons, c.step_other hesc hflag, read_nil]
    rfl

/-- A stuffed payload is read in full. -/
lemma read_stuff (bs : List α) :
    c.read (.inside whole out false) (c.stuff bs) = (.inside whole (out ++ bs) false, []) := by
  induction bs generalizing out with
  | nil => rw [stuff_nil, read_nil, List.append_nil]
  | cons b bs ih => rw [stuff_cons, read_append, read_stuffOne, ih, List.append_assoc]; rfl

/-- Between two frames it reads what stands behind the flag, and notes whether there is one. -/
lemma read_between_cons (b : α) (xs : List α) :
    c.read .between (b :: xs) =
      if b = c.flag then c.read (.inside true [] false) xs
      else c.read (.inside false [] false) (b :: xs) := by
  split_ifs with hb
  · rw [hb, read_cons, step_between_flag]
    rfl
  · rw [read_cons, read_cons, c.step_between_other hb]

/-- Between two frames a body without its flag is read, but as no frame. -/
lemma read_between {xs : List α} (hne : xs ≠ []) (hflag : c.flag ∉ xs) :
    c.read .between xs = c.read (.inside false [] false) xs := by
  cases xs with
  | nil => exact absurd rfl hne
  | cons b xs =>
      have hb : b ≠ c.flag := fun h => hflag (h ▸ List.mem_cons_self)
      rw [read_between_cons, if_neg hb]

lemma stuff_ne_nil {bs : List α} (h : bs ≠ []) : c.stuff bs ≠ [] := by
  cases bs with
  | nil => exact absurd rfl h
  | cons b bs =>
      rw [stuff_cons]
      unfold stuffOne
      split_ifs <;> simp

lemma frame_eq (bs : List α) : c.frame bs = c.flag :: (c.stuff bs ++ [c.flag]) := by
  simp [frame, delimit]

/-- A frame between two frames. -/
lemma read_frame {bs : List α} (h : bs ≠ []) : c.read .between (c.frame bs) = (.between, [bs]) := by
  rw [frame_eq, read_cons, step_between_flag, read_append, read_stuff, read_cons, step_flag]
  simp [h]

/-- A frame behind a body that has no flag at its end: its first flag is taken for that, and its
own body is read as no frame. -/
lemma read_frame_inside {bs : List α} (h : bs ≠ []) :
    c.read (.inside whole out false) (c.frame bs) =
      (.between, if whole = true ∧ out ≠ [] then [out] else []) := by
  have hrest : c.read .between (c.stuff bs ++ [c.flag]) = (.between, []) := by
    rw [read_append, c.read_between (c.stuff_ne_nil h) (c.flag_notMem_stuff bs), read_stuff,
      read_cons, step_flag]
    simp
  rw [frame_eq, read_cons, step_flag, hrest, List.append_nil]

/-- A frame behind an escape symbol: its first flag is taken for a mark, and its body goes on with
the one in front of it. -/
lemma read_frame_escaped (bs : List α) :
    c.read (.inside whole out true) (c.frame bs) =
      (.between, if whole = true ∧ out ++ bs ≠ [] then [out ++ bs] else []) := by
  rw [frame_eq, read_cons, step_escaped_flag, read_append, read_stuff, read_cons, step_flag]
  simp

end Words

/-- **Behind a complete frame the reader is between two frames**, wherever it has stood. -/
theorem read_frame_place (p : FramePlace α) {bs : List α} (h : bs ≠ []) :
    (c.read p (c.frame bs)).1 = .between := by
  match p with
  | .between => rw [c.read_frame h]
  | .inside whole out true => rw [read_frame_escaped]
  | .inside whole out false => rw [c.read_frame_inside h]

/-! ## The reader of whole bodies -/

section Bodies

variable {xs body rest : List α}

/-- In a frame the reader gets to the end of a body that is complete. -/
theorem exists_read_inside (h : c.readBody xs = (body, some rest)) (whole : Bool) (out : List α) :
    ∃ ys, xs = ys ++ rest ∧ c.read (.inside whole out false) ys =
      (.between, if whole = true ∧ out ++ body ≠ [] then [out ++ body] else []) := by
  induction xs using c.body_induction generalizing out body with
  | nil => cases h
  | esc => rw [readBody_esc] at h; cases h
  | pair d xs ih =>
      rw [readBody_pair] at h
      obtain ⟨hbody, hrest⟩ := Prod.mk.inj h
      obtain ⟨ys, rfl, hread⟩ := ih (Prod.ext rfl hrest) (out ++ c.unmark d)
      refine ⟨c.esc :: d :: ys, rfl, ?_⟩
      rw [read_cons, step_esc, read_cons, step, hread, ← hbody, List.append_assoc]
      rfl
  | flag xs =>
      rw [readBody_flag] at h
      obtain ⟨rfl, hrest⟩ := Prod.mk.inj h
      obtain rfl := Option.some.inj hrest
      refine ⟨[c.flag], rfl, ?_⟩
      rw [read_cons, step_flag, read_nil, List.append_nil, List.append_nil]
  | other b xs hesc hflag ih =>
      rw [c.readBody_other hesc hflag] at h
      obtain ⟨hbody, hrest⟩ := Prod.mk.inj h
      obtain ⟨ys, rfl, hread⟩ := ih (Prod.ext rfl hrest) (out ++ [b])
      refine ⟨b :: ys, rfl, ?_⟩
      rw [read_cons, c.step_other hesc hflag, hread, ← hbody, List.append_assoc]
      rfl

/-- In a body that is not complete it stays in the frame. -/
lemma read_inside_of_none (h : (c.readBody xs).2 = none) (whole : Bool) (out : List α) :
    (c.read (.inside whole out false) xs).1 ≠ .between ∧
      (c.read (.inside whole out false) xs).2 = [] := by
  induction xs using c.body_induction generalizing out with
  | nil => exact ⟨by simp, rfl⟩
  | esc =>
      rw [read_cons, step_esc]
      exact ⟨by simp, rfl⟩
  | pair d xs ih =>
      rw [readBody_pair] at h
      rw [read_cons, step_esc, read_cons, step]
      exact ih h _
  | flag xs => rw [readBody_flag] at h; cases h
  | other b xs hesc hflag ih =>
      rw [c.readBody_other hesc hflag] at h
      rw [read_cons, c.step_other hesc hflag]
      exact ih h _

/-- **The reader of whole bodies** is this reader: it reads a complete body, up to where it is
between two frames again. -/
theorem exists_read_between (h : c.readBody (c.frameBody xs) = (body, some rest)) :
    ∃ ys, xs = ys ++ rest ∧ c.read .between ys =
      (.between, if xs.head? = some c.flag ∧ body ≠ [] then [body] else []) := by
  cases xs with
  | nil => cases h
  | cons b xs =>
      by_cases hb : b = c.flag
      · subst hb
        obtain ⟨ys, rfl, hread⟩ := c.exists_read_inside (by simpa [frameBody] using h) true []
        refine ⟨c.flag :: ys, rfl, ?_⟩
        rw [read_between_cons, if_pos rfl, hread]
        simp
      · obtain ⟨ys, hys, hread⟩ :=
          c.exists_read_inside (by simpa [frameBody, hb] using h) false []
        refine ⟨ys, hys, ?_⟩
        cases ys with
        | nil => cases hread
        | cons b' ys =>
            obtain rfl : b = b' := (List.cons.inj hys).1
            rw [read_between_cons, if_neg hb, hread]
            simp [hb]

/-- Of a body that is not complete it reads nothing, and stands in it. -/
lemma read_between_of_none (h : (c.readBody (c.frameBody xs)).2 = none) :
    (c.read .between xs).2 = [] ∧ ((c.read .between xs).1 = .between → xs = []) := by
  cases xs with
  | nil => exact ⟨rfl, fun _ => rfl⟩
  | cons b xs =>
      rw [read_between_cons]
      split_ifs with hb
      · obtain ⟨hplace, hread⟩ :=
          c.read_inside_of_none (by simpa [frameBody, hb] using h) true []
        exact ⟨hread, fun heq => absurd heq hplace⟩
      · obtain ⟨hplace, hread⟩ :=
          c.read_inside_of_none (by simpa [frameBody, hb] using h) false []
        exact ⟨hread, fun heq => absurd heq hplace⟩

end Bodies

/-- No two flags stand side by side, and none at the start. -/
def Spaced (xs : List α) : Prop := (c.flag :: xs).IsChain fun a b => a = c.flag → b ≠ c.flag

instance (xs : List α) : Decidable (c.Spaced xs) :=
  inferInstanceAs (Decidable ((c.flag :: xs).IsChain fun a b => a = c.flag → b ≠ c.flag))

omit [DecidableEq α] in
lemma isChain_of_notMem {xs : List α} (h : c.flag ∉ xs) :
    xs.IsChain fun a b => a = c.flag → b ≠ c.flag := by
  induction xs with
  | nil => exact List.isChain_nil
  | cons x xs ih =>
      rw [List.mem_cons, not_or] at h
      exact List.isChain_cons.mpr ⟨fun y _ hx => absurd hx.symm h.1, ih h.2⟩

omit [DecidableEq α] in
/-- Symbols without a flag and a last flag keep it so. -/
lemma Spaced.append {xs ys : List α} (h : c.Spaced xs) (hne : ys ≠ []) (hys : c.flag ∉ ys) :
    c.Spaced (xs ++ ys ++ [c.flag]) := by
  have hhead (y : α) (hy : y ∈ ys.head?) : y ≠ c.flag := fun heq =>
    hys (heq ▸ List.mem_of_mem_head? hy)
  have hlast (y : α) (hy : y ∈ (c.flag :: (xs ++ ys)).getLast?) : y ≠ c.flag := fun heq => by
    rw [← List.cons_append, List.getLast?_append_of_ne_nil _ hne] at hy
    exact hys (heq ▸ List.mem_of_mem_getLast? hy)
  rw [Spaced, ← List.cons_append, List.isChain_append]
  refine ⟨?_, List.isChain_singleton _, fun x hx _ _ heq => absurd heq (hlast x hx)⟩
  rw [← List.cons_append, List.isChain_append]
  exact ⟨h, c.isChain_of_notMem hys, fun _ _ y hy _ => hhead y hy⟩

omit [DecidableEq α] in
/-- Behind a flag it is so again. -/
lemma Spaced.of_append {xs ys : List α} (h : c.Spaced (xs ++ c.flag :: ys)) : c.Spaced ys := by
  rw [Spaced, ← List.cons_append, List.isChain_append] at h
  exact h.2.1

omit [DecidableEq α] in
lemma Spaced.head_ne {x : α} {xs : List α} (h : c.Spaced (x :: xs)) : x ≠ c.flag :=
  (List.isChain_cons.mp h).1 x rfl rfl

/-- A body ends at the latest at a flag behind a symbol that does not escape it. -/
lemma readBody_through {b : α} (hb : b ≠ c.esc) (xs rest : List α) :
    ∃ ys body, (c.readBody (xs ++ b :: c.flag :: rest)).2 = some (ys ++ rest) ∧
      xs ++ [b, c.flag] = body ++ c.flag :: ys := by
  induction xs using c.body_induction with
  | nil =>
      by_cases hflag : b = c.flag
      · subst hflag
        exact ⟨[c.flag], [], by rw [List.nil_append, readBody_flag]; rfl, rfl⟩
      · refine ⟨[], [b], ?_, rfl⟩
        rw [List.nil_append, c.readBody_other hb hflag, readBody_flag]
        rfl
  | esc =>
      refine ⟨[], [c.esc, b], ?_, rfl⟩
      rw [List.singleton_append, readBody_pair, readBody_flag]
      rfl
  | pair d xs ih =>
      obtain ⟨ys, body, hread, hsplit⟩ := ih
      refine ⟨ys, c.esc :: d :: body, ?_, by simpa using hsplit⟩
      rw [List.cons_append, List.cons_append, readBody_pair, hread]
  | flag xs =>
      refine ⟨xs ++ [b, c.flag], [], ?_, rfl⟩
      rw [List.cons_append, readBody_flag]
      simp
  | other x xs hesc hflag ih =>
      obtain ⟨ys, body, hread, hsplit⟩ := ih
      refine ⟨ys, x :: body, ?_, by simpa using hsplit⟩
      rw [List.cons_append, c.readBody_other hesc hflag, hread]

/-! ## Frames that are sent again -/

/-- What is sent of a payload if sending stops behind `n` symbols, for each `n` of a list, before
the frame is complete. -/
def resent (bs : List α) (cuts : List ℕ) : List α :=
  (cuts.flatMap fun n => (c.frame bs).take n) ++ c.frame bs

/-- What is received of it. -/
def received (bs : List α) (cuts : List ℕ) : List (List α) := (c.read .between (c.resent bs cuts)).2

/-- **A cut costs no other message.**  The payloads are received as each of them is alone. -/
theorem read_resent {jobs : List (List α × List ℕ)} (h : ∀ job ∈ jobs, job.1 ≠ []) :
    c.read .between (jobs.flatMap fun job => c.resent job.1 job.2) =
      (.between, jobs.flatMap fun job => c.received job.1 job.2) := by
  induction jobs with
  | nil => rfl
  | cons job jobs ih =>
      have hplace : (c.read .between (c.resent job.1 job.2)).1 = .between := by
        rw [resent, read_append]
        exact c.read_frame_place _ (h job List.mem_cons_self)
      rw [List.flatMap_cons, read_append, hplace,
        ih fun x hx => h x (List.mem_cons_of_mem job hx), List.flatMap_cons, received]

/-! ## One cut -/

/-- The places where a body can be cut: behind a code word, or in one. -/
lemma exists_cut {bs r : List α} (h : r <+: c.stuff bs) :
    ∃ j ≤ bs.length, r = c.stuff (bs.take j) ∨
      r = c.stuff (bs.take j) ++ [c.esc] ∧ ∃ b ∈ bs[j]?, c.isSpecial b = true := by
  induction bs generalizing r with
  | nil =>
      rw [stuff_nil, List.prefix_nil] at h
      exact ⟨0, le_rfl, .inl h⟩
  | cons b bs ih =>
      rw [stuff_cons] at h
      by_cases hword : (c.stuffOne b).length ≤ r.length
      · obtain ⟨r', rfl⟩ := List.prefix_of_prefix_length_le (List.prefix_append _ _) h hword
        obtain ⟨j, hj, hcut⟩ := ih ((List.prefix_append_right_inj _).mp h)
        refine ⟨j + 1, Nat.succ_le_succ hj, ?_⟩
        rw [List.take_succ_cons, stuff_cons, List.append_assoc, List.append_cancel_left_eq,
          List.append_cancel_left_eq, List.getElem?_cons_succ]
        exact hcut
      · -- the cut is in the first code word
        rw [not_le] at hword
        have hpre := List.prefix_of_prefix_length_le h (List.prefix_append _ _) hword.le
        refine ⟨0, Nat.zero_le _, ?_⟩
        unfold stuffOne at hword hpre
        match r with
        | [] => exact .inl rfl
        | x :: r =>
            right
            split_ifs at hword hpre with hflag hesc
            · obtain ⟨rfl, hr⟩ := List.cons_prefix_cons.mp hpre
              obtain rfl : r = [] := List.length_eq_zero_iff.mp (by simpa using hword)
              exact ⟨rfl, b, rfl, by simp [isSpecial, hflag]⟩
            · obtain ⟨rfl, hr⟩ := List.cons_prefix_cons.mp hpre
              obtain rfl : r = [] := List.length_eq_zero_iff.mp (by simpa using hword)
              exact ⟨rfl, b, rfl, by simp [isSpecial, hesc]⟩
            · simp at hword

/-- The symbols in front of a cut. -/
lemma take_frame {bs : List α} {n : ℕ} (hpos : 0 < n) (hlt : n < (c.frame bs).length) :
    ∃ r, r <+: c.stuff bs ∧ (c.frame bs).take n = c.flag :: r ∧ n = r.length + 1 := by
  obtain ⟨n, rfl⟩ := Nat.exists_eq_succ_of_ne_zero hpos.ne'
  rw [frame_eq, List.length_cons, List.length_append, List.length_singleton] at hlt
  refine ⟨(c.stuff bs).take n, List.take_prefix _ _, ?_, ?_⟩
  · rw [frame_eq, List.take_succ_cons, List.take_append_of_le_length (by omega)]
  · rw [List.length_take_of_le (by omega)]

/-- **One cut.**  Behind a code word it leaves the payload up to there, and in a code word the
payload up to there with the whole payload behind it. -/
theorem received_eq {bs : List α} {n : ℕ} (hne : bs ≠ []) (hpos : 0 < n)
    (hlt : n < (c.frame bs).length) :
    ∃ j ≤ bs.length,
      (n = (c.stuff (bs.take j)).length + 1 ∧
        c.received bs [n] = if bs.take j = [] then [] else [bs.take j]) ∨
      (n = (c.stuff (bs.take j)).length + 2 ∧ (∃ b ∈ bs[j]?, c.isSpecial b = true) ∧
        c.received bs [n] = [bs.take j ++ bs]) := by
  obtain ⟨r, hr, htake, hn⟩ := c.take_frame hpos hlt
  have hreceived : c.received bs [n] = (c.read .between (c.flag :: r ++ c.frame bs)).2 := by
    rw [received, resent, List.flatMap_singleton, htake]
  have hstuff (out : List α) :
      c.read .between (c.flag :: c.stuff out) = (.inside true out false, []) := by
    rw [read_cons, step_between_flag, read_stuff]
    rfl
  obtain ⟨j, hj, rfl | ⟨rfl, hb⟩⟩ := c.exists_cut hr
  · refine ⟨j, hj, .inl ⟨hn, ?_⟩⟩
    rw [hreceived, read_append, hstuff, c.read_frame_inside hne]
    by_cases h : bs.take j = [] <;> simp [h]
  · refine ⟨j, hj, .inr ⟨by simpa using hn, hb, ?_⟩⟩
    have hesc : c.read (.inside true (bs.take j) false) [c.esc] =
        (.inside true (bs.take j) true, []) := by
      rw [read_cons, step_esc, read_nil]
      rfl
    rw [hreceived, ← List.cons_append, read_append, read_append, hstuff, hesc, read_frame_escaped]
    simp [hne]

/-- The places where a cut does no harm: at the start, in front of the last flag, and in the code
word of the first symbol. -/
def HarmlessCut (bs : List α) (n : ℕ) : Prop :=
  n = 0 ∨ n + 1 = (c.frame bs).length ∨ n = 2 ∧ ∃ b ∈ bs.head?, c.isSpecial b = true

lemma length_frame (bs : List α) : (c.frame bs).length = (c.stuff bs).length + 2 := by
  rw [frame_eq, List.length_cons, List.length_append, List.length_singleton]

lemma received_nil {bs : List α} (hne : bs ≠ []) : c.received bs [] = [bs] := by
  rw [received, resent, List.flatMap_nil, List.nil_append, c.read_frame hne]

lemma received_zero {bs : List α} (hne : bs ≠ []) : c.received bs [0] = [bs] := by
  rw [received, resent, List.flatMap_singleton, List.take_zero, List.nil_append, c.read_frame hne]

lemma length_stuffOne_of_special {b : α} (h : c.isSpecial b = true) :
    (c.stuffOne b).length = 2 := by
  rw [length_stuffOne, if_pos h]

lemma length_stuff_take (bs : List α) (j : ℕ) :
    (c.stuff (bs.take j)).length + (c.stuff (bs.drop j)).length = (c.stuff bs).length := by
  rw [← List.length_append, ← stuff_append, List.take_append_drop]

lemma eq_nil_of_length_stuff {bs : List α} (h : (c.stuff bs).length = 0) : bs = [] := by
  by_contra hne
  exact c.stuff_ne_nil hne (List.length_eq_zero_iff.mp h)

/-- A cut behind a code word does no harm behind the last one only. -/
lemma harmlessCut_behind_iff {bs : List α} {j n : ℕ} (hne : bs ≠ []) (hpos : 0 < n)
    (hn : n = (c.stuff (bs.take j)).length + 1) : c.HarmlessCut bs n ↔ bs.take j = bs := by
  constructor
  · rintro (rfl | hlast | ⟨rfl, b, hb, hword⟩)
    · exact absurd hpos (lt_irrefl 0)
    · have hsplit := c.length_stuff_take bs j
      rw [length_frame] at hlast
      have hdrop : bs.drop j = [] := c.eq_nil_of_length_stuff (by omega)
      exact List.take_of_length_le (List.drop_eq_nil_iff.mp hdrop)
    · -- the first code word has two symbols, so the cut is in it
      obtain ⟨bs', rfl⟩ : ∃ bs', bs = b :: bs' := by
        cases bs with
        | nil => exact absurd rfl hne
        | cons x bs' => exact ⟨bs', by rw [Option.mem_some_iff.mp hb]⟩
      cases j with
      | zero => simp at hn
      | succ j =>
          rw [List.take_succ_cons, stuff_cons, List.length_append,
            c.length_stuffOne_of_special hword] at hn
          omega
  · intro htake
    rw [htake] at hn
    rw [HarmlessCut, length_frame]
    omega

/-- A cut in a code word does no harm in the first one only. -/
lemma harmlessCut_inside_iff {bs : List α} {b : α} {j n : ℕ}
    (hn : n = (c.stuff (bs.take j)).length + 2) (hb : b ∈ bs[j]?) (hword : c.isSpecial b = true) :
    c.HarmlessCut bs n ↔ bs.take j = [] := by
  constructor
  · rintro (rfl | hlast | ⟨rfl, -⟩)
    · omega
    · have hsplit := c.length_stuff_take bs j
      rw [List.drop_eq_getElem_cons (List.getElem?_eq_some_iff.mp hb).1, stuff_cons,
        List.length_append, (List.getElem?_eq_some_iff.mp hb).2,
        c.length_stuffOne_of_special hword] at hsplit
      rw [length_frame] at hlast
      omega
    · exact c.eq_nil_of_length_stuff (by omega)
  · intro htake
    rw [htake, stuff_nil, List.length_nil] at hn
    have hzero : j = 0 := by
      have hj := (List.getElem?_eq_some_iff.mp hb).1
      have hlength := congrArg List.length htake
      rw [List.length_take, List.length_nil] at hlength
      omega
    subst hzero
    exact .inr (.inr ⟨hn, b, by simpa [List.head?_eq_getElem?] using hb, hword⟩)

/-- **A payload that is cut once is received unharmed** exactly at these places. -/
theorem received_iff {bs : List α} {n : ℕ} (hne : bs ≠ []) (hlt : n < (c.frame bs).length) :
    c.received bs [n] = [bs] ↔ c.HarmlessCut bs n := by
  rcases Nat.eq_zero_or_pos n with rfl | hpos
  · exact ⟨fun _ => .inl rfl, fun _ => c.received_zero hne⟩
  obtain ⟨j, -, ⟨hn, hread⟩ | ⟨hn, ⟨b, hb, hword⟩, hread⟩⟩ := c.received_eq hne hpos hlt
  · rw [hread, c.harmlessCut_behind_iff hne hpos hn]
    by_cases hnil : bs.take j = []
    · simp [hnil, hne.symm]
    · simp [hnil]
  · rw [hread, c.harmlessCut_inside_iff hn hb hword, List.singleton_inj, List.append_left_eq_self]

lemma length_received_le {bs : List α} {cuts : List ℕ} (hne : bs ≠ []) (honce : cuts.length ≤ 1)
    (hlt : ∀ n ∈ cuts, n < (c.frame bs).length) : (c.received bs cuts).length ≤ 1 := by
  match cuts with
  | [] => rw [c.received_nil hne]; rfl
  | [n] =>
      rcases Nat.eq_zero_or_pos n with rfl | hpos
      · rw [c.received_zero hne]; rfl
      obtain ⟨j, -, ⟨-, hread⟩ | ⟨-, -, hread⟩⟩ :=
        c.received_eq hne hpos (hlt n List.mem_cons_self)
      · rw [hread]
        split_ifs <;> simp
      · rw [hread]
        rfl
  | _ :: _ :: _ => simp at honce

/-- A payload and its cut. -/
lemma received_iff_of_once {bs : List α} {cuts : List ℕ} (hne : bs ≠ []) (honce : cuts.length ≤ 1)
    (hlt : ∀ n ∈ cuts, n < (c.frame bs).length) :
    c.received bs cuts = [bs] ↔ ∀ n ∈ cuts, c.HarmlessCut bs n := by
  match cuts with
  | [] => simp [c.received_nil hne]
  | [n] => simp [c.received_iff hne (hlt n List.mem_cons_self)]
  | _ :: _ :: _ => simp at honce

/-- **Payloads that are cut once at most** are received as they were sent if and only if every cut
is harmless. -/
theorem flatMap_received_iff {jobs : List (List α × List ℕ)} (hne : ∀ job ∈ jobs, job.1 ≠ [])
    (honce : ∀ job ∈ jobs, job.2.length ≤ 1)
    (hlt : ∀ job ∈ jobs, ∀ n ∈ job.2, n < (c.frame job.1).length) :
    (jobs.flatMap fun job => c.received job.1 job.2) = jobs.map Prod.fst ↔
      ∀ job ∈ jobs, ∀ n ∈ job.2, c.HarmlessCut job.1 n := by
  have hle (job : List α × List ℕ) (hjob : job ∈ jobs) :
      (c.received job.1 job.2).length ≤ 1 :=
    c.length_received_le (hne job hjob) (honce job hjob) (hlt job hjob)
  rw [flatMap_eq_map_iff hle]
  exact forall₂_congr fun job hjob =>
    c.received_iff_of_once (hne job hjob) (honce job hjob) (hlt job hjob)

end EscapeCode

end MonoBus
