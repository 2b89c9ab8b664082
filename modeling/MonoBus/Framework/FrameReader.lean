import MonoBus.Framework.Stuffing

/-!
# Reading stuffed bodies from a stream

A reader takes symbols until it comes to a flag.  It takes an escape symbol together with the
symbol behind it, which is dropped if it is no mark.  Where the stream ends first, there is no
frame yet.

A body never decodes to more than was sent for it: what a reader gets out of it, stuffed again,
is at most as long, and as long only if it is that body (`stuff_of_readBody`).
-/

namespace MonoBus

namespace EscapeCode

variable {α : Type*} [DecidableEq α] (c : EscapeCode α)

/-- What an escape symbol and the symbol behind it stand for. -/
def unmark (d : α) : List α :=
  if d = c.markFlag then [c.flag] else if d = c.markEsc then [c.esc] else []

/-- The symbols of a body, and what follows the flag at its end, if there is one. -/
def readBody : List α → List α × Option (List α)
  | [] => ([], none)
  | [b] => if b = c.esc then ([], none) else if b = c.flag then ([], some []) else ([b], none)
  | b :: d :: rest =>
      if b = c.esc then (c.unmark d ++ (readBody rest).1, (readBody rest).2)
      else if b = c.flag then ([], some (d :: rest))
      else (b :: (readBody (d :: rest)).1, (readBody (d :: rest)).2)

/-! ## Steps of the reader -/

@[simp] lemma readBody_nil : c.readBody [] = ([], none) := rfl

@[simp] lemma readBody_esc : c.readBody [c.esc] = ([], none) := by simp [readBody]

@[simp] lemma readBody_pair (d : α) (rest : List α) :
    c.readBody (c.esc :: d :: rest) =
      (c.unmark d ++ (c.readBody rest).1, (c.readBody rest).2) := by simp [readBody]

@[simp] lemma readBody_flag (rest : List α) : c.readBody (c.flag :: rest) = ([], some rest) := by
  have hne := c.esc_ne_flag
  cases rest <;> simp [readBody, hne.symm]

lemma readBody_other {b : α} (hesc : b ≠ c.esc) (hflag : b ≠ c.flag) (rest : List α) :
    c.readBody (b :: rest) = (b :: (c.readBody rest).1, (c.readBody rest).2) := by
  cases rest <;> simp [readBody, hesc, hflag]

/-- Induction along the steps of the reader. -/
theorem body_induction {P : List α → Prop} (nil : P []) (esc : P [c.esc])
    (pair : ∀ d rest, P rest → P (c.esc :: d :: rest)) (flag : ∀ rest, P (c.flag :: rest))
    (other : ∀ b rest, b ≠ c.esc → b ≠ c.flag → P rest → P (b :: rest)) (xs : List α) : P xs := by
  induction hn : xs.length using Nat.strong_induction_on generalizing xs with
  | _ n ih =>
      cases xs with
      | nil => exact nil
      | cons b rest =>
          rw [List.length_cons] at hn
          by_cases hesc : b = c.esc
          · subst hesc
            cases rest with
            | nil => exact esc
            | cons d rest =>
                rw [List.length_cons] at hn
                exact pair d rest (ih _ (by omega) rest rfl)
          · by_cases hflag : b = c.flag
            · subst hflag
              exact flag rest
            · exact other b rest hesc hflag (ih _ (by omega) rest rfl)

@[simp] lemma unmark_markFlag : c.unmark c.markFlag = [c.flag] := if_pos rfl

@[simp] lemma unmark_markEsc : c.unmark c.markEsc = [c.esc] := by
  rw [unmark, if_neg c.markFlag_ne_markEsc.symm, if_pos rfl]

/-- A code word is read as the symbol it stands for. -/
lemma readBody_stuffOne_append (b : α) (rest : List α) :
    c.readBody (c.stuffOne b ++ rest) = (b :: (c.readBody rest).1, (c.readBody rest).2) := by
  unfold stuffOne
  split_ifs with hflag hesc
  · simp [hflag]
  · simp [hesc]
  · exact c.readBody_other hesc hflag rest

/-- A stuffed body in front of a flag is read as it was. -/
theorem readBody_stuff (bs rest : List α) :
    c.readBody (c.stuff bs ++ c.flag :: rest) = (bs, some rest) := by
  induction bs with
  | nil => exact c.readBody_flag rest
  | cons b bs ih => rw [stuff_cons, List.append_assoc, readBody_stuffOne_append, ih]

/-! ## Part of a body -/

/-- From the first symbols of a stuffed body the reader gets every symbol whose code word is
complete. -/
theorem readBody_of_prefix {bs r : List α} (h : r <+: c.stuff bs) :
    ∃ j ≤ bs.length, c.readBody r = (bs.take j, none) ∧
      (c.stuff (bs.take j)).length ≤ r.length ∧
      ∀ i ≤ bs.length, (c.stuff (bs.take i)).length ≤ r.length → i ≤ j := by
  induction bs generalizing r with
  | nil =>
      rw [stuff_nil, List.prefix_nil] at h
      subst h
      exact ⟨0, le_rfl, rfl, le_rfl, fun i hi _ => hi⟩
  | cons b bs ih =>
      by_cases hword : (c.stuffOne b).length ≤ r.length
      · -- the code word of the first symbol is complete
        obtain ⟨r', rfl⟩ := List.prefix_of_prefix_length_le (List.prefix_append _ _)
          (c.stuff_cons b bs ▸ h) hword
        obtain ⟨j, hj, hread, hlen, hmax⟩ := ih ((List.prefix_append_right_inj _).mp h)
        refine ⟨j + 1, by simpa using hj, ?_, ?_, ?_⟩
        · rw [readBody_stuffOne_append, hread]
          rfl
        · simpa using hlen
        · intro i hi hfit
          cases i with
          | zero => omega
          | succ i =>
              rw [List.take_succ_cons, stuff_cons, List.length_append, List.length_append] at hfit
              have hle := hmax i (by simpa using hi) (by omega)
              omega
      · -- what there is of it is an escape symbol at most
        have hone := c.length_stuffOne b
        have hr : r = [] ∨ r = [c.esc] := by
          cases r with
          | nil => exact .inl rfl
          | cons a r =>
              have hspecial : c.isSpecial b = true := by
                by_contra hnot
                simp only [hnot, if_false] at hone
                simp [hone] at hword
              rw [hspecial, if_pos rfl] at hone
              have hnil : r = [] := by
                rw [List.length_cons] at hword
                exact List.length_eq_zero_iff.mp (by omega)
              have hhead : a = c.esc := by
                obtain ⟨tail, htail⟩ := h
                rw [stuff_cons, stuffOne] at htail
                have hb : b = c.flag ∨ b = c.esc := by simpa [isSpecial] using hspecial
                split_ifs at htail with hflag hesc
                · simpa using (List.cons.inj htail).1
                · simpa using (List.cons.inj htail).1
                · exact absurd hb (by simp [hflag, hesc])
              exact .inr (by rw [hnil, hhead])
        refine ⟨0, Nat.zero_le _, ?_, Nat.zero_le _, ?_⟩
        · obtain rfl | rfl := hr
          · rfl
          · exact c.readBody_esc
        · intro i hi hfit
          cases i with
          | zero => exact le_rfl
          | succ i =>
              rw [List.take_succ_cons, stuff_cons, List.length_append] at hfit
              omega

/-! ## Lengths -/

lemma length_unmark_le (d : α) : (c.stuff (c.unmark d)).length ≤ 2 := by
  unfold unmark
  split_ifs <;> simp [stuffOne, apply_ite List.length]

lemma unmark_ne_nil_iff {d : α} (h : (c.stuff (c.unmark d)).length = 2) :
    c.stuff (c.unmark d) = [c.esc, d] := by
  have hne := c.esc_ne_flag
  unfold unmark at h ⊢
  split_ifs at h ⊢ with hflag hesc
  · simp [stuffOne, hflag]
  · simp [stuffOne, hesc, hne]
  · simp at h

/-- The body in front of the flag is at least as long as what is read from it, stuffed again; and
if it is as long, it is that. -/
theorem stuff_of_readBody {xs out rest : List α} (h : c.readBody xs = (out, some rest)) :
    ∃ body, xs = body ++ c.flag :: rest ∧ (c.stuff out).length ≤ body.length ∧
      ((c.stuff out).length = body.length → body = c.stuff out) := by
  induction xs using c.body_induction generalizing out with
  | nil => simp at h
  | esc => simp at h
  | pair d xs ih =>
      rw [readBody_pair] at h
      obtain ⟨rfl, hrest⟩ := Prod.mk.inj h
      have hread : c.readBody xs = ((c.readBody xs).1, some rest) := Prod.ext rfl hrest
      obtain ⟨body, hbody, hle, heq⟩ := ih hread
      have hmark := c.length_unmark_le d
      refine ⟨c.esc :: d :: body, by rw [hbody]; rfl, ?_, ?_⟩
      · rw [stuff_append, List.length_append, List.length_cons, List.length_cons]
        omega
      · intro hlen
        rw [stuff_append, List.length_append, List.length_cons, List.length_cons] at hlen
        rw [stuff_append, c.unmark_ne_nil_iff (by omega), heq (by omega)]
        rfl
  | flag xs =>
      rw [readBody_flag] at h
      obtain ⟨rfl, hrest⟩ := Prod.mk.inj h
      obtain rfl := Option.some.inj hrest
      exact ⟨[], rfl, le_rfl, fun _ => rfl⟩
  | other b xs hesc hflag ih =>
      rw [c.readBody_other hesc hflag] at h
      obtain ⟨rfl, hrest⟩ := Prod.mk.inj h
      have hread : c.readBody xs = ((c.readBody xs).1, some rest) := Prod.ext rfl hrest
      obtain ⟨body, hbody, hle, heq⟩ := ih hread
      refine ⟨b :: body, by rw [hbody]; rfl, ?_, ?_⟩
      · rw [stuff_cons, c.stuffOne_of_ne hflag hesc]
        simpa using hle
      · intro hlen
        rw [stuff_cons, c.stuffOne_of_ne hflag hesc] at hlen ⊢
        rw [heq (by simpa using hlen)]
        rfl

/-- Without a flag the reader gets at most what there is, and all of it only unchanged. -/
theorem length_of_readBody {xs out : List α} (h : c.readBody xs = (out, none)) :
    out.length ≤ xs.length ∧ (out.length = xs.length → out = xs) := by
  induction xs using c.body_induction generalizing out with
  | nil => simp_all
  | esc => simp_all
  | pair d xs ih =>
      rw [readBody_pair] at h
      obtain ⟨rfl, hrest⟩ := Prod.mk.inj h
      have hread : c.readBody xs = ((c.readBody xs).1, none) := Prod.ext rfl hrest
      obtain ⟨hle, -⟩ := ih hread
      have hmark : (c.unmark d).length ≤ 1 := by
        unfold unmark
        split_ifs <;> simp
      rw [List.length_append, List.length_cons, List.length_cons]
      exact ⟨by omega, fun hlen => by omega⟩
  | flag xs => simp at h
  | other b xs hesc hflag ih =>
      rw [c.readBody_other hesc hflag] at h
      obtain ⟨rfl, hrest⟩ := Prod.mk.inj h
      have hread : c.readBody xs = ((c.readBody xs).1, none) := Prod.ext rfl hrest
      obtain ⟨hle, heq⟩ := ih hread
      rw [List.length_cons, List.length_cons]
      exact ⟨by omega, fun hlen => by rw [heq (by omega)]⟩

/-- A flag behind a symbol that does not escape it ends the body. -/
theorem readBody_ne_none {b : α} (hb : b ≠ c.esc) (xs ys : List α) :
    (c.readBody (xs ++ b :: c.flag :: ys)).2 ≠ none := by
  have hlast : (c.readBody (b :: c.flag :: ys)).2 ≠ none := by
    by_cases hflag : b = c.flag
    · simp [hflag]
    · simp [c.readBody_other hb hflag]
  induction xs using c.body_induction with
  | nil => exact hlast
  | esc => simp
  | pair d xs ih => simpa using ih
  | flag xs => simp
  | other a xs hesc hflag ih =>
      rw [List.cons_append, c.readBody_other hesc hflag]
      exact ih

/-! ## Reading in place -/

/-- What the reader reads of a frame: everything behind the flag at its start, if there is one. -/
def frameBody (xs : List α) : List α := if xs.head? = some c.flag then xs.tail else xs

/-- What becomes of a list if the symbols that are read from it are stored at its start. -/
def readInPlace (xs : List α) : List α :=
  (c.readBody (c.frameBody xs)).1 ++ xs.drop (c.readBody (c.frameBody xs)).1.length

/-- The same behind a flag at the start. -/
lemma readBody_frameBody_ne_none {b : α} (hb : b ≠ c.esc) (xs ys : List α) :
    (c.readBody (c.frameBody (xs ++ b :: c.flag :: ys))).2 ≠ none := by
  unfold frameBody
  split_ifs
  · cases xs with
    | nil =>
        rw [List.nil_append, List.tail_cons, readBody_flag]
        exact Option.some_ne_none _
    | cons a xs => exact c.readBody_ne_none hb xs ys
  · exact c.readBody_ne_none hb xs ys

lemma length_frameBody (xs : List α) :
    xs.length = (c.frameBody xs).length + if xs.head? = some c.flag then 1 else 0 := by
  unfold frameBody
  split_ifs with hhead
  · cases xs with
    | nil => cases hhead
    | cons b xs => rfl
  · rfl

/-- If there is no complete frame, the list keeps its length and its last symbol. -/
lemma readInPlace_of_none {xs : List α} (h : (c.readBody (c.frameBody xs)).2 = none) :
    (c.readInPlace xs).length = xs.length ∧ (c.readInPlace xs).getLast? = xs.getLast? := by
  have hsplit := c.length_frameBody xs
  have hread : c.readBody (c.frameBody xs) = ((c.readBody (c.frameBody xs)).1, none) :=
    Prod.ext rfl h
  obtain ⟨hle, heq⟩ := c.length_of_readBody hread
  unfold readInPlace
  constructor
  · rw [List.length_append, List.length_drop]
    omega
  · by_cases hlt : (c.readBody (c.frameBody xs)).1.length < xs.length
    · rw [List.getLast?_append_of_ne_nil _ (by simpa using hlt), List.getLast?_drop,
        if_neg (by omega)]
    · have hhead : ¬ xs.head? = some c.flag := by
        intro hhead
        rw [if_pos hhead] at hsplit
        omega
      rw [if_neg hhead] at hsplit
      rw [heq (by omega), frameBody, if_neg hhead, List.drop_length, List.append_nil]

end EscapeCode

end MonoBus
