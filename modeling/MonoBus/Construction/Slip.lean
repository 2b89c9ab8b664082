import MonoBus.Framework.FrameReader
import Mathlib.Data.List.GetD

/-!
# SLIP frames (`stream.h`)

Both functions work in place.  The encoder makes room from the back; where nothing is escaped, it
moves the message by one.  The decoder writes behind the place it reads from, also when it then
finds that the frame is not complete: what it has written stays (`slipDecodeInline_eq`).
-/

namespace MonoBus

/-- `SLIP_END`. -/
def slipEnd : UInt8 := 0xc0

/-- `SLIP_ESC`. -/
def slipEsc : UInt8 := 0xdb

/-- `SLIP_END_REPLACE`. -/
def slipEndReplace : UInt8 := 0xdc

/-- `SLIP_ESC_REPLACE`. -/
def slipEscReplace : UInt8 := 0xdd

/-! ## The encoder -/

/-- The size that is estimated first. -/
def slipSize (bytes : List UInt8) : ℕ :=
  bytes.foldl (fun size b => if b = slipEnd ∨ b = slipEsc then size + 2 else size + 1) 2

/-- The slow track: the bytes in front of `from_` are encoded from the back, up to `to_`. -/
def slipEncodeLoop : ℕ → List UInt8 → ℕ → List UInt8 × ℕ
  | 0, dst, to_ => (dst, to_)
  | from_ + 1, dst, to_ =>
      let b := dst.getD from_ 0
      if b = slipEnd then
        slipEncodeLoop from_ ((dst.set to_ slipEndReplace).set (to_ - 1) slipEsc) (to_ - 2)
      else if b = slipEsc then
        slipEncodeLoop from_ ((dst.set to_ slipEscReplace).set (to_ - 1) slipEsc) (to_ - 2)
      else slipEncodeLoop from_ (dst.set to_ b) (to_ - 1)

/-- `lv2_osc_slip_encode_inline`: the buffer afterwards, and the size of the frame. -/
def slipEncodeInline (dst : List UInt8) (len : ℕ) : List UInt8 × ℕ :=
  if len = 0 then (dst, 0)
  else
    let size := slipSize (dst.take len)
    if size = len + 2 then
      let dst := dst.take 1 ++ (dst.take len ++ dst.drop (1 + len))
      ((dst.set 0 slipEnd).set (size - 1) slipEnd, size)
    else
      let (dst, to_) := slipEncodeLoop len (dst.set (size - 1) slipEnd) (size - 2)
      (dst.set to_ slipEnd, size)

/-! ## The decoder -/

/-- The loop, with the positions of `ptr` and `src`.  At the end of a frame it gives both. -/
def slipDecodeLoop (len : ℕ) : ℕ → List UInt8 → ℕ → ℕ → List UInt8 × Option (ℕ × ℕ)
  | 0, dst, _, _ => (dst, none)
  | fuel + 1, dst, ptr, src =>
      if len ≤ src then (dst, none)
      else
        let b := dst.getD src 0
        if b = slipEsc then
          if src = len - 1 then (dst, none)
          else
            let d := dst.getD (src + 1) 0
            if d = slipEndReplace then
              slipDecodeLoop len fuel (dst.set ptr slipEnd) (ptr + 1) (src + 2)
            else if d = slipEscReplace then
              slipDecodeLoop len fuel (dst.set ptr slipEsc) (ptr + 1) (src + 2)
            else slipDecodeLoop len fuel dst ptr (src + 2)
        else if b = slipEnd then (dst, some (ptr, src + 1))
        else slipDecodeLoop len fuel (dst.set ptr b) (ptr + 1) (src + 1)

/-- `lv2_osc_slip_decode_inline`: the buffer afterwards, the size of the message, and the number of
bytes parsed. -/
def slipDecodeInline (dst : List UInt8) : List UInt8 × ℕ × ℕ :=
  let whole := dst.head? = some slipEnd
  match slipDecodeLoop dst.length dst.length dst 0 (if whole then 1 else 0) with
  | (dst, some (ptr, src)) => (dst, if whole then ptr else 0, src)
  | (dst, none) => (dst, 0, 0)

/-! ## What they do -/

/-- The symbols of SLIP. -/
def slipCode : EscapeCode UInt8 where
  flag := slipEnd
  esc := slipEsc
  markFlag := slipEndReplace
  markEsc := slipEscReplace
  esc_ne_flag := by decide
  markFlag_ne_flag := by decide
  markEsc_ne_flag := by decide
  markFlag_ne_markEsc := by decide

/-- The frame of a message. -/
def slipFrame (message : List UInt8) : List UInt8 := delimit slipEnd (slipCode.stuff message)

lemma length_slipFrame (message : List UInt8) :
    (slipFrame message).length = (slipCode.stuff message).length + 2 := by
  simp [slipFrame, delimit]

lemma slipSize_eq (bytes : List UInt8) : slipSize bytes = (slipFrame bytes).length := by
  have hfold (size : ℕ) : bytes.foldl
      (fun size b => if b = slipEnd ∨ b = slipEsc then size + 2 else size + 1) size =
        size + (slipCode.stuff bytes).length := by
    induction bytes generalizing size with
    | nil => rfl
    | cons b bytes ih =>
        rw [List.foldl_cons, ih, EscapeCode.stuff_cons, List.length_append,
          EscapeCode.length_stuffOne]
        by_cases hb : b = slipEnd ∨ b = slipEsc
        · have hspecial : slipCode.isSpecial b = true := decide_eq_true hb
          rw [if_pos hb, hspecial, if_pos rfl]
          omega
        · have hspecial : slipCode.isSpecial b = false := decide_eq_false hb
          rw [if_neg hb, hspecial]
          simp only [Bool.false_eq_true, if_false]
          omega
  rw [slipSize, hfold, length_slipFrame, Nat.add_comm]

/-- A store into a list that is cut at its place. -/
lemma set_append_cons (xs : List UInt8) (x v : UInt8) (ys : List UInt8) :
    (xs ++ x :: ys).set xs.length v = xs ++ v :: ys := by
  simp [List.set_append_right]

lemma slipEncodeLoop_pair {bytes stuffed gap done : List UInt8} {mark : UInt8} (hne : gap ≠ [])
    (hgap : bytes.length + gap.length = stuffed.length + 2)
    (ih : ∀ gap done : List UInt8, bytes.length + gap.length = stuffed.length + 1 →
      ∃ g, slipEncodeLoop bytes.length (bytes ++ (gap ++ done)) (bytes.length + gap.length - 1) =
        (g :: (stuffed ++ done), 0)) :
    ∃ g, slipEncodeLoop bytes.length
      (((bytes ++ gap) ++ mark :: done).set ((bytes ++ gap).length - 1) slipEsc)
        ((bytes ++ gap).length - 2) = (g :: (stuffed ++ (slipEsc :: mark :: done)), 0) := by
  obtain ⟨gap', y, rfl⟩ : ∃ gap' y, gap = gap' ++ [y] :=
    ⟨_, _, (List.dropLast_append_getLast hne).symm⟩
  rw [List.length_append, List.length_singleton] at hgap
  have hlast : (bytes ++ (gap' ++ [y])).length - 1 = (bytes ++ gap').length := by
    simp only [List.length_append, List.length_singleton]
    omega
  have hnext : (bytes ++ (gap' ++ [y])).length - 2 = bytes.length + gap'.length - 1 := by
    simp only [List.length_append, List.length_singleton]
    omega
  have hcut : bytes ++ (gap' ++ [y]) ++ mark :: done =
      (bytes ++ gap') ++ y :: (mark :: done) := by simp
  rw [hlast, hnext, hcut, set_append_cons, List.append_assoc]
  exact ih gap' (slipEsc :: mark :: done) (by omega)

/-- The gap between the bytes that are not encoded yet and the encoded ones closes up to one
byte, as it is as large as the escapes still to come. -/
lemma slipEncodeLoop_eq (bytes gap done : List UInt8)
    (hgap : bytes.length + gap.length = (slipCode.stuff bytes).length + 1) :
    ∃ g, slipEncodeLoop bytes.length (bytes ++ (gap ++ done)) (bytes.length + gap.length - 1) =
      (g :: (slipCode.stuff bytes ++ done), 0) := by
  induction bytes using List.reverseRecOn generalizing gap done with
  | nil =>
      obtain ⟨g, rfl⟩ := List.length_eq_one_iff.mp (by simpa using hgap)
      exact ⟨g, rfl⟩
  | append_singleton bytes b ih =>
      have hlen := slipCode.length_stuff bytes
      have hone := slipCode.length_stuffOne b
      rw [EscapeCode.stuff_append, EscapeCode.stuff_singleton, List.length_append,
        List.length_append, List.length_singleton] at hgap
      have hread : (bytes ++ [b] ++ (gap ++ done)).getD bytes.length 0 = b := by simp
      rw [List.length_append, List.length_singleton, slipEncodeLoop, hread,
        EscapeCode.stuff_append, EscapeCode.stuff_singleton]
      -- the byte itself now belongs to the gap, and its code word is stored at the end of it
      obtain ⟨x, gap₁, hgap₁⟩ : ∃ x gap₁, b :: gap = gap₁ ++ [x] :=
        ⟨_, _, (List.dropLast_append_getLast (List.cons_ne_nil b gap)).symm⟩
      have hlen₁ := congrArg List.length hgap₁
      rw [List.length_cons, List.length_append, List.length_singleton] at hlen₁
      have hdst (ys : List UInt8) : bytes ++ [b] ++ (gap ++ ys) = (bytes ++ gap₁) ++ x :: ys := by
        rw [List.append_assoc, ← List.append_assoc [b], List.singleton_append, hgap₁]
        simp
      have hto : bytes.length + 1 + gap.length - 1 = (bytes ++ gap₁).length := by
        rw [List.length_append]
        omega
      rw [hdst, hto, set_append_cons, set_append_cons, set_append_cons]
      have hpair (hspecial : slipCode.isSpecial b = true) (mark : UInt8) :
          ∃ g, slipEncodeLoop bytes.length
            (((bytes ++ gap₁) ++ mark :: done).set ((bytes ++ gap₁).length - 1) slipEsc)
              ((bytes ++ gap₁).length - 2) =
            (g :: (slipCode.stuff bytes ++ (slipEsc :: mark :: done)), 0) := by
        rw [hspecial, if_pos rfl] at hone
        have hne : gap₁ ≠ [] := by
          rintro rfl
          rw [List.length_nil] at hlen₁
          omega
        exact slipEncodeLoop_pair hne (by omega) ih
      by_cases hend : b = slipEnd
      · have hword : slipCode.stuffOne b = [slipEsc, slipEndReplace] := if_pos hend
        rw [if_pos hend, hword, List.append_assoc (slipCode.stuff bytes)]
        exact hpair (decide_eq_true (.inl hend)) slipEndReplace
      · by_cases hesc : b = slipEsc
        · have hword : slipCode.stuffOne b = [slipEsc, slipEscReplace] := by
            rw [hesc]
            rfl
          rw [if_neg hend, if_pos hesc, hword, List.append_assoc (slipCode.stuff bytes)]
          exact hpair (decide_eq_true (.inr hesc)) slipEscReplace
        · have hword : slipCode.stuffOne b = [b] := slipCode.stuffOne_of_ne hend hesc
          have hspecial : slipCode.isSpecial b = false :=
            decide_eq_false (not_or.mpr ⟨hend, hesc⟩)
          rw [hspecial] at hone
          simp only [Bool.false_eq_true, if_false] at hone
          rw [if_neg hend, if_neg hesc, hword, List.append_assoc (slipCode.stuff bytes),
            List.append_assoc bytes, List.length_append]
          exact ih gap₁ (b :: done) (by omega)

/-- A message is its own stuffing if it gets no longer by it. -/
lemma stuff_eq_self {message : List UInt8}
    (h : (slipCode.stuff message).length = message.length) : slipCode.stuff message = message := by
  rw [EscapeCode.length_stuff] at h
  have hnone : ∀ b ∈ message, slipCode.stuffOne b = [b] := by
    intro b hb
    have hcount : message.countP slipCode.isSpecial = 0 := by omega
    have hspecial := List.countP_eq_zero.mp hcount b hb
    have hne : ¬ (b = slipEnd ∨ b = slipEsc) := fun hor => hspecial (decide_eq_true hor)
    exact slipCode.stuffOne_of_ne (fun h => hne (.inl h)) fun h => hne (.inr h)
  rw [EscapeCode.stuff, List.flatMap_congr hnone, List.flatMap_singleton']

/-- **The encoder.**  If there is room for it, the frame of the message stands at the start of the
buffer, and nothing behind it has changed. -/
theorem slipEncodeInline_eq {message rest : List UInt8} (hne : message ≠ [])
    (hroom : (slipFrame message).length ≤ (message ++ rest).length) :
    slipEncodeInline (message ++ rest) message.length =
      (slipFrame message ++ (message ++ rest).drop (slipFrame message).length,
        (slipFrame message).length) := by
  have hpos : message.length ≠ 0 := fun h => hne (List.length_eq_zero_iff.mp h)
  have hframe := length_slipFrame message
  have hstuff := slipCode.length_stuff message
  -- `x` stands where the last byte of the frame comes to stand
  obtain ⟨gap, x, tail, hrest, hgap⟩ : ∃ gap x tail, rest = gap ++ x :: tail ∧
      message.length + gap.length + 1 = (slipFrame message).length := by
    rw [List.length_append] at hroom
    have hlt : (slipFrame message).length - 1 - message.length < rest.length := by omega
    refine ⟨rest.take ((slipFrame message).length - 1 - message.length), _, _,
      (List.take_append_drop _ rest).symm.trans (congrArg _ (List.drop_eq_getElem_cons hlt)), ?_⟩
    rw [List.length_take]
    omega
  have hdst (v : UInt8) : (message ++ rest).set ((slipFrame message).length - 1) v =
      message ++ (gap ++ v :: tail) := by
    have hlast : (slipFrame message).length - 1 = (message ++ gap).length := by
      rw [List.length_append]
      omega
    rw [hrest, ← List.append_assoc, hlast, set_append_cons, List.append_assoc]
  have htail : (message ++ rest).drop (slipFrame message).length = tail := by
    have hlen : (slipFrame message).length = (message ++ (gap ++ [x])).length := by
      simp only [List.length_append, List.length_singleton]
      omega
    have hsplit : message ++ rest = (message ++ (gap ++ [x])) ++ tail := by simp [hrest]
    rw [hsplit, hlen, List.drop_left]
  rw [slipEncodeInline, if_neg hpos, List.take_left, slipSize_eq, htail]
  simp only
  by_cases hfast : (slipFrame message).length = message.length + 2
  · -- nothing is escaped
    obtain ⟨y, rfl⟩ : ∃ y, gap = [y] := List.length_eq_one_iff.mp (by omega)
    have hself := @stuff_eq_self message (by omega)
    obtain ⟨b, bytes, rfl⟩ := List.exists_cons_of_ne_nil hne
    have hdrop : (b :: bytes ++ rest).drop (1 + (b :: bytes).length) = x :: tail := by
      rw [hrest, Nat.add_comm, ← List.drop_drop, List.drop_left]
      rfl
    have hmoved : ((b :: bytes ++ rest).take 1 ++ (b :: bytes ++ x :: tail)).set 0 slipEnd =
        (slipEnd :: b :: bytes) ++ x :: tail := rfl
    have hlast : (slipFrame (b :: bytes)).length - 1 = (slipEnd :: b :: bytes).length := by
      rw [hfast]
      rfl
    rw [if_pos hfast, hdrop, hmoved, hlast, set_append_cons, slipFrame, hself]
    simp [delimit]
  · have hto : (slipFrame message).length - 2 = message.length + gap.length - 1 := by omega
    obtain ⟨g, hloop⟩ := slipEncodeLoop_eq message gap (slipEnd :: tail) (by omega)
    rw [if_neg hfast, hdst, hto, hloop]
    simp [slipFrame, delimit]

lemma read_of_drop {dst body : List UInt8} {src : ℕ} {b : UInt8} (h : dst.drop src = b :: body) :
    src < dst.length ∧ dst.getD src 0 = b ∧ dst.drop (src + 1) = body := by
  have hlt : src < dst.length := by
    by_contra hle
    rw [List.drop_eq_nil_of_le (by omega)] at h
    cases h
  rw [List.drop_eq_getElem_cons hlt] at h
  obtain ⟨hb, hbody⟩ := List.cons.inj h
  exact ⟨hlt, by rw [List.getD_eq_getElem _ _ hlt, hb], hbody⟩

/-- The buffer after a store at `ptr` and what is stored from there on. -/
lemma store_then (dst : List UInt8) {ptr : ℕ} (h : ptr < dst.length) (v : UInt8)
    (out : List UInt8) :
    (dst.set ptr v).take (ptr + 1) ++ (out ++ (dst.set ptr v).drop (ptr + 1 + out.length)) =
      dst.take ptr ++ ((v :: out) ++ dst.drop (ptr + (v :: out).length)) := by
  have htake : (dst.set ptr v).take (ptr + 1) = dst.take ptr ++ [v] := by
    rw [List.take_succ_eq_append_getElem (by simpa using h), List.take_set_of_le le_rfl,
      List.getElem_set_self]
  have hlen : ptr + (v :: out).length = ptr + 1 + out.length := by
    rw [List.length_cons]
    omega
  rw [htake, List.drop_set_of_lt (by omega), hlen]
  simp

/-- The buffer with `out` stored from `ptr` on, and if a frame has ended in front of `rest`, the
positions at its end. -/
def decoded (dst : List UInt8) (ptr : ℕ) (out : List UInt8) (rest : Option (List UInt8)) :
    List UInt8 × Option (ℕ × ℕ) :=
  (dst.take ptr ++ (out ++ dst.drop (ptr + out.length)),
    rest.map fun rest => (ptr + out.length, dst.length - rest.length))

lemma slipDecodeLoop_store {fuel : ℕ} {dst body out : List UInt8} {rest : Option (List UInt8)}
    {ptr src : ℕ} (v : UInt8) (hlt : ptr < src) (hsrc : src ≤ dst.length)
    (hbody : dst.drop src = body)
    (h : ∀ (dst : List UInt8) (ptr src : ℕ), ptr ≤ src → dst.drop src = body →
      slipDecodeLoop dst.length fuel dst ptr src = decoded dst ptr out rest) :
    slipDecodeLoop dst.length fuel (dst.set ptr v) (ptr + 1) src =
      decoded dst ptr (v :: out) rest := by
  have hnext := h (dst.set ptr v) (ptr + 1) src hlt (by rw [List.drop_set_of_lt hlt, hbody])
  rw [List.length_set] at hnext
  rw [hnext, decoded, decoded, store_then dst (by omega), List.length_set, List.length_cons]
  simp only [Nat.add_assoc, Nat.add_comm 1]

/-- The loop reads from `src` on, and stores from `ptr` on. -/
lemma slipDecodeLoop_eq (body : List UInt8) : ∀ (fuel : ℕ) (dst : List UInt8) (ptr src : ℕ),
    body.length ≤ fuel → ptr ≤ src → dst.drop src = body →
    slipDecodeLoop dst.length fuel dst ptr src =
      decoded dst ptr (slipCode.readBody body).1 (slipCode.readBody body).2 := by
  induction body using slipCode.body_induction with
  | nil =>
      intro fuel dst ptr src _ _ hbody
      have hle : dst.length ≤ src := List.drop_eq_nil_iff.mp hbody
      cases fuel with
      | zero => simp [slipDecodeLoop, decoded]
      | succ fuel => simp [slipDecodeLoop, decoded, hle]
  | esc =>
      intro fuel dst ptr src hfuel _ hbody
      obtain ⟨hlt, hb, hrest⟩ := read_of_drop hbody
      have hlast : src = dst.length - 1 := by
        have hle := List.drop_eq_nil_iff.mp hrest
        omega
      cases fuel with
      | zero => simp at hfuel
      | succ fuel =>
          rw [slipDecodeLoop, if_neg (by omega)]
          simp only [hb, EscapeCode.readBody_esc]
          rw [if_pos (show slipCode.esc = slipEsc from rfl), if_pos hlast]
          simp [decoded]
  | pair d body ih =>
      intro fuel dst ptr src hfuel hle hbody
      obtain ⟨hlt, hb, hrest⟩ := read_of_drop hbody
      obtain ⟨hlt', hd, hrest'⟩ := read_of_drop hrest
      have hunmark : slipCode.unmark d = if d = slipEndReplace then [slipEnd]
          else if d = slipEscReplace then [slipEsc] else [] := rfl
      cases fuel with
      | zero => simp at hfuel
      | succ fuel =>
          rw [List.length_cons, List.length_cons] at hfuel
          have ih' := fun dst ptr src => ih fuel dst ptr src (by omega)
          rw [slipDecodeLoop, if_neg (by omega)]
          simp only [hb, hd, EscapeCode.readBody_pair]
          rw [if_pos (show slipCode.esc = slipEsc from rfl), if_neg (by omega), hunmark]
          split_ifs with hend hesc
          · exact slipDecodeLoop_store slipEnd (by omega) (by omega) hrest' ih'
          · exact slipDecodeLoop_store slipEsc (by omega) (by omega) hrest' ih'
          · exact ih' dst ptr (src + 2) (by omega) hrest'
  | flag body =>
      intro fuel dst ptr src hfuel _ hbody
      obtain ⟨hlt, hb, hrest⟩ := read_of_drop hbody
      have hlen := congrArg List.length hrest
      rw [List.length_drop] at hlen
      cases fuel with
      | zero => simp at hfuel
      | succ fuel =>
          rw [slipDecodeLoop, if_neg (by omega)]
          simp only [hb, EscapeCode.readBody_flag]
          rw [if_neg (show ¬ slipCode.flag = slipEsc by decide),
            if_pos (show slipCode.flag = slipEnd from rfl)]
          have hsrc : src + 1 = dst.length - body.length := by omega
          simp [decoded, hsrc]
  | other b body hesc hflag ih =>
      intro fuel dst ptr src hfuel hle hbody
      obtain ⟨hlt, hb, hrest⟩ := read_of_drop hbody
      cases fuel with
      | zero => simp at hfuel
      | succ fuel =>
          rw [List.length_cons] at hfuel
          have ih' := fun dst ptr src => ih fuel dst ptr src (by omega)
          rw [slipDecodeLoop, if_neg (by omega), slipCode.readBody_other hesc hflag]
          simp only [hb]
          rw [if_neg (show ¬ b = slipEsc from hesc), if_neg (show ¬ b = slipEnd from hflag)]
          exact slipDecodeLoop_store b (by omega) (by omega) hrest ih'

/-- **The decoder.**  It stores what it reads at the start of the buffer.  A frame that is complete
it parses up to its end, and its message counts if the frame starts with `SLIP_END`. -/
theorem slipDecodeInline_eq (dst : List UInt8) :
    slipDecodeInline dst = (slipCode.readInPlace dst,
      match (slipCode.readBody (slipCode.frameBody dst)).2 with
      | some rest => (if dst.head? = some slipEnd then
          (slipCode.readBody (slipCode.frameBody dst)).1.length else 0, dst.length - rest.length)
      | none => (0, 0)) := by
  have hbody : dst.drop (if dst.head? = some slipEnd then 1 else 0) = slipCode.frameBody dst := by
    have hflag : slipCode.flag = slipEnd := rfl
    rw [EscapeCode.frameBody, hflag]
    split_ifs <;> simp
  have hlen := slipCode.length_frameBody dst
  have hloop := slipDecodeLoop_eq (slipCode.frameBody dst) dst.length dst 0 _ (by omega)
    (Nat.zero_le _) hbody
  rw [slipDecodeInline]
  simp only [hloop, decoded, EscapeCode.readInPlace]
  cases (slipCode.readBody (slipCode.frameBody dst)).2 with
  | none => simp
  | some rest => simp

end MonoBus
