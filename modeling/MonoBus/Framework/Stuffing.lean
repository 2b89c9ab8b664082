import Mathlib.Tactic
import Mathlib.Data.List.Basic

/-!
# Flag-delimited framing with an escape symbol

A frame is a flag, a body free of flags, and a flag.  A payload that may contain any symbol
is made flag-free by *stuffing*: the flag and the escape symbol are replaced by the escape
symbol followed by a mark standing for the original.  Asynchronous HDLC and SLIP are the two
usual instances; they differ only in the four symbols.

`EscapeCode` packages the four symbols with the inequalities every argument below rests on.
`stuff_injective` recovers the payload from the stuffed bytes through the left inverse
`unstuff`, and `flatMap_delimit_injective` recovers the bodies from a stream of frames.
-/

namespace MonoBus

/-- The symbols of an escape code: the flag, the escape symbol, and the two marks that stand
for them behind an escape symbol. -/
structure EscapeCode (α : Type*) where
  flag : α
  esc : α
  markFlag : α
  markEsc : α
  esc_ne_flag : esc ≠ flag
  markFlag_ne_flag : markFlag ≠ flag
  markEsc_ne_flag : markEsc ≠ flag
  markFlag_ne_markEsc : markFlag ≠ markEsc

namespace EscapeCode

variable {α : Type*} [DecidableEq α] (c : EscapeCode α)

/-! ## Stuffing one symbol and a payload -/

/-- The code word of one payload symbol. -/
def stuffOne (b : α) : List α :=
  if b = c.flag then [c.esc, c.markFlag]
  else if b = c.esc then [c.esc, c.markEsc]
  else [b]

/-- The stuffed payload. -/
def stuff (bs : List α) : List α := bs.flatMap c.stuffOne

@[simp] lemma stuff_nil : c.stuff [] = [] := rfl

@[simp] lemma stuff_cons (b : α) (bs : List α) :
    c.stuff (b :: bs) = c.stuffOne b ++ c.stuff bs := rfl

lemma stuff_append (bs cs : List α) : c.stuff (bs ++ cs) = c.stuff bs ++ c.stuff cs := by
  simp [stuff, List.flatMap_append]

lemma stuff_singleton (b : α) : c.stuff [b] = c.stuffOne b := by simp

lemma stuffOne_of_ne {b : α} (hflag : b ≠ c.flag) (hesc : b ≠ c.esc) :
    c.stuffOne b = [b] := by
  rw [stuffOne, if_neg hflag, if_neg hesc]

lemma flag_notMem_stuffOne (b : α) : c.flag ∉ c.stuffOne b := by
  have hesc := c.esc_ne_flag
  have hmarkFlag := c.markFlag_ne_flag
  have hmarkEsc := c.markEsc_ne_flag
  unfold stuffOne
  split_ifs with hflag hescape
  · simp [hesc.symm, hmarkFlag.symm]
  · simp [hesc.symm, hmarkEsc.symm]
  · simpa using fun h : c.flag = b => hflag h.symm

/-- A stuffed payload never shows the flag. -/
lemma flag_notMem_stuff (bs : List α) : c.flag ∉ c.stuff bs := by
  induction bs with
  | nil => simp
  | cons b bs ih => simp [c.flag_notMem_stuffOne b, ih]

/-! ## The last symbol -/

/-- A stuffed payload ends in a mark, or in the last symbol of the payload as it is. -/
lemma last_of_stuff {bs xs : List α} {b : α} (h : c.stuff bs = xs ++ [b]) :
    b = c.markFlag ∨ b = c.markEsc ∨
      b ≠ c.esc ∧ ∃ cs, bs = cs ++ [b] ∧ c.stuff cs = xs := by
  rcases List.eq_nil_or_concat bs with rfl | ⟨cs, d, rfl⟩
  · simp at h
  · rw [List.concat_eq_append] at h ⊢
    rw [stuff_append, stuff_singleton, stuffOne] at h
    split_ifs at h with hflag hesc
    · have hlast := congrArg List.getLast? h
      exact .inl (by simpa using hlast.symm)
    · have hlast := congrArg List.getLast? h
      exact .inr (.inl (by simpa using hlast.symm))
    · obtain ⟨hcs, hd⟩ := List.append_inj' h rfl
      obtain rfl : d = b := List.singleton_inj.mp hd
      exact .inr (.inr ⟨hesc, cs, rfl, hcs⟩)

/-! ## Recovering the payload -/

/-- The receiver's reading of a stuffed payload: an escape symbol is dropped and the mark
behind it is replaced by the symbol it stands for. -/
def unstuff : List α → List α
  | [] => []
  | [b] => [b]
  | b :: d :: rest =>
      if b = c.esc then
        (if d = c.markFlag then c.flag else c.esc) :: unstuff rest
      else b :: unstuff (d :: rest)

lemma unstuff_cons_of_ne_esc {b : α} (hb : b ≠ c.esc) (rest : List α) :
    c.unstuff (b :: rest) = b :: c.unstuff rest := by
  cases rest with
  | nil => rfl
  | cons d rest => simp [unstuff, hb]

lemma unstuff_stuffOne_append (b : α) (rest : List α) :
    c.unstuff (c.stuffOne b ++ rest) = b :: c.unstuff rest := by
  unfold stuffOne
  split_ifs with hflag hesc
  · simp [unstuff, hflag]
  · simp [unstuff, hesc, c.markFlag_ne_markEsc.symm]
  · exact c.unstuff_cons_of_ne_esc hesc rest

@[simp] lemma unstuff_stuff (bs : List α) : c.unstuff (c.stuff bs) = bs := by
  induction bs with
  | nil => rfl
  | cons b bs ih => rw [stuff_cons, unstuff_stuffOne_append, ih]

/-- Stuffing loses nothing. -/
lemma stuff_injective : Function.Injective c.stuff :=
  Function.LeftInverse.injective c.unstuff_stuff

/-! ## Length -/

/-- Whether a payload symbol costs two symbols on the line. -/
def isSpecial (b : α) : Bool := decide (b = c.flag ∨ b = c.esc)

lemma length_stuffOne (b : α) :
    (c.stuffOne b).length = 1 + if c.isSpecial b then 1 else 0 := by
  unfold stuffOne isSpecial
  by_cases hflag : b = c.flag
  · simp [hflag]
  · by_cases hesc : b = c.esc
    · simp [hesc, c.esc_ne_flag]
    · simp [hflag, hesc]

/-- The stuffed payload is longer by one symbol for each flag and each escape symbol. -/
lemma length_stuff (bs : List α) :
    (c.stuff bs).length = bs.length + bs.countP c.isSpecial := by
  induction bs with
  | nil => rfl
  | cons b bs ih =>
      rw [stuff_cons, List.length_append, length_stuffOne, ih, List.length_cons,
        List.countP_cons]
      omega

end EscapeCode

/-! ## Delimited frames -/

section Delimit

variable {α : Type*}

/-- A frame: the body between two flags. -/
def delimit (flag : α) (body : List α) : List α := flag :: (body ++ [flag])

/-- A flag-free body gives a frame in which the flag occurs as its two ends only. -/
lemma count_flag_delimit [DecidableEq α] {flag : α} {body : List α} (hbody : flag ∉ body) :
    (delimit flag body).count flag = 2 := by
  simp [delimit, List.count_eq_zero_of_not_mem hbody]

lemma head?_delimit (flag : α) (body : List α) :
    (delimit flag body).head? = some flag := rfl

lemma getLast?_delimit (flag : α) (body : List α) :
    (delimit flag body).getLast? = some flag := by
  rw [delimit, ← List.cons_append, List.getLast?_concat]

/-- The first flag behind two flag-free bodies stands at the same place. -/
lemma append_flag_inj {flag : α} :
    ∀ {body body' rest rest' : List α}, flag ∉ body → flag ∉ body' →
      body ++ flag :: rest = body' ++ flag :: rest' → body = body' ∧ rest = rest' := by
  intro body
  induction body with
  | nil =>
      intro body' rest rest' _ hbody' h
      cases body' with
      | nil => exact ⟨rfl, (List.cons.inj h).2⟩
      | cons d ds => exact absurd (List.cons.inj h).1 (fun hd => hbody' (by simp [hd]))
  | cons b bs ih =>
      intro body' rest rest' hbody hbody' h
      cases body' with
      | nil => exact absurd (List.cons.inj h).1.symm (fun hb => hbody (by simp [hb]))
      | cons d ds =>
          obtain ⟨hhead, htail⟩ := List.cons.inj h
          obtain ⟨hds, hrest⟩ := ih (fun hmem => hbody (List.mem_cons_of_mem b hmem))
            (fun hmem => hbody' (List.mem_cons_of_mem d hmem)) htail
          exact ⟨by rw [hhead, hds], hrest⟩

lemma delimit_append_inj {flag : α} {body body' rest rest' : List α}
    (hbody : flag ∉ body) (hbody' : flag ∉ body')
    (h : delimit flag body ++ rest = delimit flag body' ++ rest') :
    body = body' ∧ rest = rest' := by
  simp only [delimit, List.cons_append, List.append_assoc, List.nil_append,
    List.cons.injEq, true_and] at h
  exact append_flag_inj hbody hbody' h

/-- The bodies of a stream of frames are determined by the stream. -/
theorem flatMap_delimit_injective {flag : α} :
    ∀ {bodies bodies' : List (List α)},
      (∀ b ∈ bodies, flag ∉ b) → (∀ b ∈ bodies', flag ∉ b) →
      bodies.flatMap (delimit flag) = bodies'.flatMap (delimit flag) → bodies = bodies' := by
  intro bodies
  induction bodies with
  | nil =>
      intro bodies' _ _ h
      cases bodies' with
      | nil => rfl
      | cons b bs => simp [delimit] at h
  | cons b bs ih =>
      intro bodies' hbodies hbodies' h
      cases bodies' with
      | nil => simp [delimit] at h
      | cons b' bs' =>
          rw [List.flatMap_cons, List.flatMap_cons] at h
          obtain ⟨hhead, hrest⟩ := delimit_append_inj
            (hbodies b (by simp)) (hbodies' b' (by simp)) h
          have htail := ih (fun d hd => hbodies d (by simp [hd]))
            (fun d hd => hbodies' d (by simp [hd])) hrest
          rw [hhead, htail]

end Delimit

end MonoBus
