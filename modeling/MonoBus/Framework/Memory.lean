import MonoBus.Framework.MachineInt

/-!
# A C object and the pointers into it

`Memory` is one object: its address and its bytes.  Addresses are 64-bit and pointer arithmetic
wraps, so an address may well lie outside the object; reading there is a fault, and so is
reading through a null pointer.  `Stop` lists the ways a run ends without a result.  Running
out of fuel is one of them, and a computation that stops so at every fuel does not terminate.

A C string is modelled by its characters before the terminator.  `Memory.cstr` reads it, and
faults where `strlen` would run past the end of the object.
-/

namespace MonoBus

/-- How a run of C code ends without a result. -/
inductive Stop
  /-- A read outside the object. -/
  | outOfRange
  /-- A member access through a null pointer. -/
  | nullPointer
  /-- The fuel of the interpreter ran out. -/
  | outOfFuel
  deriving DecidableEq, Repr

/-- The outcome of a run. -/
abbrev Run (α : Type*) := Except Stop α

namespace Run

universe u

variable {α β : Type u}

@[simp] lemma ok_bind (a : α) (f : α → Run β) : ((.ok a : Run α) >>= f) = f a := rfl

@[simp] lemma error_bind (e : Stop) (f : α → Run β) : ((.error e : Run α) >>= f) = .error e :=
  rfl

@[simp] lemma bind_ok (x : Run α) : (x >>= fun a => .ok a) = x := by cases x <;> rfl

@[simp] lemma pure_eq (a : α) : (pure a : Run α) = .ok a := rfl

/-- A sequence of two steps succeeds exactly if both do. -/
lemma bind_eq_ok {x : Run α} {f : α → Run β} {b : β} :
    x >>= f = .ok b ↔ ∃ a, x = .ok a ∧ f a = .ok b := by
  cases x <;> simp

/-- A loop whose rounds all succeed. -/
lemma foldlM_ok {f : β → α → Run β} {g : β → α → β} {l : List α}
    (h : ∀ b, ∀ a ∈ l, f b a = .ok (g b a)) (b : β) : l.foldlM f b = .ok (l.foldl g b) := by
  induction l generalizing b with
  | nil => rfl
  | cons a l ih =>
      rw [List.foldlM_cons, h b a List.mem_cons_self]
      exact ih (fun b x hx => h b x (List.mem_cons_of_mem a hx)) _

end Run

section Ends

universe u

variable {α β : Type u} {e : Stop}

/-- A run is not stopped in a certain way. -/
def Avoids (e : Stop) (x : Run α) : Prop := x ≠ .error e

@[simp] lemma avoids_ok (a : α) : Avoids e (.ok a : Run α) := by simp [Avoids]

lemma Avoids.of_eq_ok {x : Run α} {a : α} (h : x = .ok a) : Avoids e x := h ▸ avoids_ok a

lemma Avoids.bind {x : Run α} {f : α → Run β} (hx : Avoids e x)
    (hf : ∀ a, x = .ok a → Avoids e (f a)) : Avoids e (x >>= f) := by
  cases x with
  | ok a => exact hf a rfl
  | error e => simpa [Avoids] using hx

/-- What comes first has to avoid it. -/
lemma Avoids.left {x : Run α} {f : α → Run β} (h : Avoids e (x >>= f)) : Avoids e x := by
  rintro rfl
  exact h rfl

lemma Avoids.ite {c : Prop} [Decidable c] {x y : Run α} (hx : Avoids e x) (hy : Avoids e y) :
    Avoids e (if c then x else y) := by
  split_ifs
  · exact hx
  · exact hy

lemma Avoids.foldlM {f : β → α → Run β} {l : List α} (hf : ∀ b, ∀ a ∈ l, Avoids e (f b a))
    (b : β) : Avoids e (l.foldlM f b) := by
  induction l generalizing b with
  | nil => exact avoids_ok b
  | cons a l ih =>
      rw [List.foldlM_cons]
      exact (hf b a List.mem_cons_self).bind fun b' _ =>
        ih (fun b x hx => hf b x (List.mem_cons_of_mem a hx)) b'

/-- A run comes to an end: it returns, or a fault stops it. -/
def Ends (x : Run α) : Prop := x ≠ .error .outOfFuel

@[simp] lemma ends_ok (a : α) : Ends (.ok a : Run α) := avoids_ok a

lemma Ends.bind {x : Run α} {f : α → Run β} (hx : Ends x) (hf : ∀ a, x = .ok a → Ends (f a)) :
    Ends (x >>= f) :=
  Avoids.bind hx hf

lemma Ends.left {x : Run α} {f : α → Run β} (h : Ends (x >>= f)) : Ends x := Avoids.left h

lemma Ends.ite {c : Prop} [Decidable c] {x y : Run α} (hx : Ends x) (hy : Ends y) :
    Ends (if c then x else y) :=
  Avoids.ite hx hy

lemma Ends.foldlM {f : β → α → Run β} {l : List α} (hf : ∀ b, ∀ a ∈ l, Ends (f b a)) (b : β) :
    Ends (l.foldlM f b) :=
  Avoids.foldlM hf b

/-- The only fault of a run is a read outside the object. -/
def OnlyStrays (x : Run α) : Prop := ∀ e, x = .error e → e = .outOfRange

lemma onlyStrays_ok (a : α) : OnlyStrays (.ok a : Run α) := fun _ h => by cases h

lemma OnlyStrays.ends {x : Run α} (h : OnlyStrays x) : Ends x := fun hfuel => by
  cases h _ hfuel

/-- Without that fault it returns. -/
lemma OnlyStrays.exists_ok {x : Run α} (h : OnlyStrays x) (havoids : Avoids .outOfRange x) :
    ∃ a, x = .ok a := by
  cases x with
  | ok a => exact ⟨a, rfl⟩
  | error e => exact absurd (congrArg _ (h e rfl)) havoids

lemma OnlyStrays.bind {x : Run α} {f : α → Run β} (hx : OnlyStrays x)
    (hf : ∀ a, x = .ok a → OnlyStrays (f a)) : OnlyStrays (x >>= f) := by
  cases x with
  | ok a => exact hf a rfl
  | error e =>
      intro e' h
      rw [← Except.error.inj h]
      exact hx e rfl

lemma OnlyStrays.ite {c : Prop} [Decidable c] {x y : Run α} (hx : OnlyStrays x)
    (hy : OnlyStrays y) : OnlyStrays (if c then x else y) := by
  split_ifs
  · exact hx
  · exact hy

end Ends

/-- The sum of an address and a `size_t`, in 64 bits. -/
def addPtr (a n : ℕ) : ℕ := (a + n) % 2 ^ 64

lemma addPtr_of_lt {a n : ℕ} (h : a + n < 2 ^ 64) : addPtr a n = a + n := Nat.mod_eq_of_lt h

/-- An object in memory.  It does not start at the null address and lies in the lower half of
the address space, where objects of user space live. -/
structure Memory where
  base : ℕ
  bytes : List UInt8
  base_pos : 0 < base
  fits : base + bytes.length ≤ 2 ^ 63

namespace Memory

/-- An object with the given bytes, at a fixed address. -/
def placed (bytes : List UInt8) (h : bytes.length ≤ 2 ^ 62) : Memory where
  base := 4096
  bytes := bytes
  base_pos := by omega
  fits := by omega

variable (m : Memory)

/-- The address behind the last byte. -/
def limit : ℕ := m.base + m.bytes.length

/-- The `n` bytes from address `a` on lie in the object. -/
def Holds (a n : ℕ) : Prop := m.base ≤ a ∧ a + n ≤ m.limit

instance (a n : ℕ) : Decidable (m.Holds a n) := inferInstanceAs (Decidable (_ ∧ _))

/-- The bytes of the object from address `a` on. -/
def from_ (a : ℕ) : List UInt8 := m.bytes.drop (a - m.base)

/-- Read the `n` bytes from address `a` on. -/
def slice (a n : ℕ) : Run (List UInt8) :=
  if m.Holds a n then .ok ((m.from_ a).take n) else .error .outOfRange

/-- `*(const uint8_t *)a`. -/
def load (a : ℕ) : Run UInt8 :=
  if m.base ≤ a then
    match m.bytes[a - m.base]? with
    | some b => .ok b
    | none => .error .outOfRange
  else .error .outOfRange

/-- The C string at `a`, without its terminator. -/
def cstr (a : ℕ) : Run (List UInt8) :=
  if m.base ≤ a ∧ 0 ∈ m.from_ a then .ok ((m.from_ a).takeWhile (· ≠ 0))
  else .error .outOfRange

/-- `strncmp(a, lit, n) == 0` for a literal of `n` bytes, its terminator included: bytes are
read up to the first that differs. -/
def strncmpEq (a : ℕ) : List UInt8 → Run Bool
  | [] => .ok true
  | c :: cs => do
      let b ← m.load a
      if b = c then strncmpEq (a + 1) cs else .ok false

/-- `memcpy(a, bs, n)`, or an assignment through a pointer. -/
def store (a : ℕ) (bs : List UInt8) : Run Memory :=
  if h : m.Holds a bs.length then
    .ok {
      base := m.base
      bytes := m.bytes.take (a - m.base) ++ (bs ++ m.bytes.drop (a - m.base + bs.length))
      base_pos := m.base_pos
      fits := by
        have hfits := m.fits
        unfold Holds limit at h
        simp only [List.length_append, List.length_take, List.length_drop]
        omega }
  else .error .outOfRange

variable {m}

lemma load_eq_ok_iff {a : ℕ} {b : UInt8} :
    m.load a = .ok b ↔ m.base ≤ a ∧ m.bytes[a - m.base]? = some b := by
  unfold load
  split_ifs with hbase
  · cases hbyte : m.bytes[a - m.base]? <;> simp [hbase]
  · simp [hbase]

/-- A byte can be read exactly where the object holds it. -/
lemma exists_load_iff {a : ℕ} : (∃ b, m.load a = .ok b) ↔ m.Holds a 1 := by
  simp only [load_eq_ok_iff, Holds, limit]
  constructor
  · rintro ⟨b, hbase, hbyte⟩
    have hlt := (List.getElem?_eq_some_iff.mp hbyte).1
    omega
  · rintro ⟨hbase, hlt⟩
    exact ⟨_, hbase, List.getElem?_eq_getElem (by omega)⟩

lemma error_of_load {a : ℕ} {e : Stop} (h : m.load a = .error e) : e = .outOfRange := by
  unfold load at h
  split_ifs at h
  · cases hbyte : m.bytes[a - m.base]? <;> simp_all
  · simp_all

/-- A C string stands in front of its terminator. -/
lemma exists_of_cstr {a : ℕ} {str : List UInt8} (h : m.cstr a = .ok str) :
    ∃ post, m.from_ a = str ++ 0 :: post ∧ 0 ∉ str := by
  unfold cstr at h
  split_ifs at h with hstr
  obtain ⟨pre, post, hfrom, hpre⟩ := List.eq_append_cons_of_mem hstr.2
  have hall : ∀ b ∈ pre, decide (b ≠ 0) = true :=
    fun b hb => decide_eq_true fun h0 => hpre (h0 ▸ hb)
  rw [hfrom, List.takeWhile_append_of_pos hall] at h
  have hpre_eq : pre = str := by simpa using h
  exact ⟨post, hpre_eq ▸ hfrom, hpre_eq ▸ hpre⟩

/-- A C string starts with the byte at its address, unless that is the terminator. -/
lemma exists_cons_of_cstr {a : ℕ} {b : UInt8} {str : List UInt8} (h : m.cstr a = .ok str)
    (hload : m.load a = .ok b) (hb : b ≠ 0) : ∃ rest, str = b :: rest := by
  obtain ⟨post, hfrom, -⟩ := exists_of_cstr h
  obtain ⟨-, hbyte⟩ := load_eq_ok_iff.mp hload
  have hhead : (str ++ 0 :: post)[0]? = some b := by
    rwa [← hfrom, from_, List.getElem?_drop, Nat.add_zero]
  cases str with
  | nil => exact absurd (Option.some.inj hhead).symm hb
  | cons c rest => exact ⟨rest, by rw [Option.some.inj hhead]⟩

/-! ### How a read fails -/

lemma onlyStrays_slice (a n : ℕ) : OnlyStrays (m.slice a n) := by
  unfold slice
  refine .ite (onlyStrays_ok _) fun e h => ?_
  exact (Except.error.inj h).symm

lemma onlyStrays_load (a : ℕ) : OnlyStrays (m.load a) := fun _ => error_of_load

lemma onlyStrays_cstr (a : ℕ) : OnlyStrays (m.cstr a) := by
  unfold cstr
  refine .ite (onlyStrays_ok _) fun e h => ?_
  exact (Except.error.inj h).symm

lemma onlyStrays_strncmpEq (a : ℕ) (lit : List UInt8) : OnlyStrays (m.strncmpEq a lit) := by
  induction lit generalizing a with
  | nil => exact onlyStrays_ok _
  | cons c lit ih =>
      exact (onlyStrays_load a).bind fun b _ => .ite (ih (a + 1)) (onlyStrays_ok _)

/-! ### Reads inside the object -/

/-- The C string at `a` has its terminator in the object. -/
def Terminated (m : Memory) (a : ℕ) : Prop := m.base ≤ a ∧ 0 ∈ m.from_ a

/-- The object ends within what could be the literal. -/
def EndsWithin (m : Memory) (a : ℕ) (lit : List UInt8) : Prop :=
  m.from_ a <+: lit ∧ m.from_ a ≠ lit

lemma avoids_cstr_iff {a : ℕ} : Avoids .outOfRange (m.cstr a) ↔ m.Terminated a := by
  rw [cstr, Terminated]
  split_ifs with h
  · exact iff_of_true (avoids_ok _) h
  · exact iff_of_false (fun havoids => havoids rfl) h

lemma avoids_slice_iff {a n : ℕ} : Avoids .outOfRange (m.slice a n) ↔ m.Holds a n := by
  rw [slice]
  split_ifs with h
  · exact iff_of_true (avoids_ok _) h
  · exact iff_of_false (fun havoids => havoids rfl) h

lemma avoids_load_iff {a : ℕ} : Avoids .outOfRange (m.load a) ↔ m.Holds a 1 := by
  rw [← exists_load_iff]
  constructor
  · exact (onlyStrays_load a).exists_ok
  · rintro ⟨b, hb⟩
    exact .of_eq_ok hb

/-- The bytes from an address on, one by one. -/
lemma from_eq_cons {a : ℕ} {b : UInt8} (h : m.load a = .ok b) :
    m.from_ a = b :: m.from_ (a + 1) := by
  obtain ⟨hbase, hbyte⟩ := load_eq_ok_iff.mp h
  obtain ⟨hlt, hb⟩ := List.getElem?_eq_some_iff.mp hbyte
  have hnext : a + 1 - m.base = a - m.base + 1 := by omega
  rw [from_, from_, hnext, List.drop_eq_getElem_cons hlt, hb]

lemma from_eq_nil {a : ℕ} (hbase : m.base ≤ a) (h : ¬ m.Holds a 1) : m.from_ a = [] := by
  rw [from_, List.drop_eq_nil_iff]
  unfold Holds limit at h
  omega

/-- `strncmp` reads up to the first difference, so it needs the object to go on until then. -/
lemma avoids_strncmpEq_iff {a : ℕ} {lit : List UInt8} (hbase : m.base ≤ a) :
    Avoids .outOfRange (m.strncmpEq a lit) ↔ ¬ m.EndsWithin a lit := by
  induction lit generalizing a with
  | nil =>
      refine iff_of_true (avoids_ok _) ?_
      rintro ⟨hpre, hne⟩
      exact hne (List.prefix_nil.mp hpre)
  | cons c lit ih =>
      rw [strncmpEq, EndsWithin]
      by_cases hload : m.Holds a 1
      · obtain ⟨b, hb⟩ := exists_load_iff.mpr hload
        rw [hb, Run.ok_bind, from_eq_cons hb, List.cons_prefix_cons]
        split_ifs with hbc
        · rw [ih (hbase.trans (Nat.le_succ a)), EndsWithin, hbc]
          simp
        · exact iff_of_true (avoids_ok _) fun h => hbc h.1.1
      · refine iff_of_false (fun h => hload (avoids_load_iff.mp h.left)) ?_
        rw [from_eq_nil hbase hload]
        simp

/-! ### Known bytes at an address -/

/-- The bytes `bs` stand at address `a`. -/
def At (m : Memory) (a : ℕ) (bs : List UInt8) : Prop :=
  ∃ pre post, m.bytes = pre ++ bs ++ post ∧ a = m.base + pre.length

lemma at_base (m : Memory) : m.At m.base m.bytes := ⟨[], [], by simp, rfl⟩

namespace At

variable {a : ℕ} {b : UInt8} {bs cs : List UInt8}

lemma base_le (h : m.At a bs) : m.base ≤ a := by
  obtain ⟨pre, post, -, rfl⟩ := h
  omega

lemma end_le (h : m.At a bs) : a + bs.length ≤ m.limit := by
  obtain ⟨pre, post, hbytes, rfl⟩ := h
  rw [limit, hbytes, List.length_append, List.length_append]
  omega

lemma end_lt (h : m.At a bs) : a + bs.length ≤ 2 ^ 63 := h.end_le.trans m.fits

lemma left (h : m.At a (bs ++ cs)) : m.At a bs := by
  obtain ⟨pre, post, hbytes, ha⟩ := h
  exact ⟨pre, cs ++ post, by simp [hbytes], ha⟩

lemma right (h : m.At a (bs ++ cs)) : m.At (a + bs.length) cs := by
  obtain ⟨pre, post, hbytes, rfl⟩ := h
  exact ⟨pre ++ bs, post, by simp [hbytes], by simp [Nat.add_assoc]⟩

lemma tail (h : m.At a (b :: bs)) : m.At (a + 1) bs := by
  rw [← List.singleton_append] at h
  exact h.right

lemma holds (h : m.At a bs) : m.Holds a bs.length := ⟨h.base_le, h.end_le⟩

lemma exists_from (h : m.At a bs) : ∃ post, m.from_ a = bs ++ post := by
  obtain ⟨pre, post, hbytes, rfl⟩ := h
  refine ⟨post, ?_⟩
  rw [from_, hbytes, Nat.add_sub_cancel_left, List.append_assoc, List.drop_left]

lemma slice (h : m.At a bs) : m.slice a bs.length = .ok bs := by
  obtain ⟨post, hfrom⟩ := h.exists_from
  rw [Memory.slice, if_pos h.holds, hfrom, List.take_left]

lemma load (h : m.At a (b :: bs)) : m.load a = .ok b := by
  obtain ⟨pre, post, hbytes, rfl⟩ := h
  rw [load_eq_ok_iff]
  refine ⟨by omega, ?_⟩
  simp [hbytes]

lemma cstr (hzero : 0 ∉ bs) (h : m.At a (bs ++ 0 :: cs)) : m.cstr a = .ok bs := by
  obtain ⟨post, hfrom⟩ := h.exists_from
  have hall : ∀ b ∈ bs, decide (b ≠ 0) = true :=
    fun b hb => decide_eq_true (fun h0 => hzero (h0 ▸ hb))
  rw [Memory.cstr, hfrom, if_pos ⟨h.base_le, by simp⟩, List.append_assoc,
    List.takeWhile_append_of_pos hall]
  simp

lemma strncmpEq (h : m.At a bs) : m.strncmpEq a bs = .ok true := by
  induction bs generalizing a with
  | nil => rfl
  | cons b bs ih =>
      rw [Memory.strncmpEq, h.load]
      simpa using ih h.tail

/-- The comparison stops at a first byte that differs. -/
lemma strncmpEq_of_ne {c : UInt8} (h : m.At a (b :: bs)) (hne : b ≠ c) :
    m.strncmpEq a (c :: cs) = .ok false := by
  rw [Memory.strncmpEq, h.load]
  simp [hne]

lemma of_load (h : m.load a = .ok b) : m.At a [b] := by
  obtain ⟨hbase, hbyte⟩ := load_eq_ok_iff.mp h
  obtain ⟨hlt, hb⟩ := List.getElem?_eq_some_iff.mp hbyte
  refine ⟨m.bytes.take (a - m.base), m.bytes.drop (a - m.base + 1), ?_, ?_⟩
  · rw [← hb, List.append_assoc, List.singleton_append, ← List.drop_eq_getElem_cons hlt,
      List.take_append_drop]
  · rw [List.length_take]
    omega

/-- Bytes that are replaced by as many others. -/
lemma store {xs ys ys' zs : List UInt8} (h : m.At a (xs ++ (ys ++ zs)))
    (hlen : ys'.length = ys.length) :
    ∃ m', m.store (a + xs.length) ys' = .ok m' ∧ m'.At a (xs ++ (ys' ++ zs)) ∧
      m'.base = m.base ∧ m'.limit = m.limit := by
  have hholds : m.Holds (a + xs.length) ys'.length := hlen ▸ h.right.left.holds
  obtain ⟨pre, post, hbytes, rfl⟩ := h
  have hskip : m.base + pre.length + xs.length - m.base = (pre ++ xs).length := by
    rw [List.length_append]
    omega
  have hsplit : m.bytes = (pre ++ xs) ++ (ys ++ (zs ++ post)) := by simp [hbytes]
  have hnew : m.bytes.take (m.base + pre.length + xs.length - m.base) ++
      (ys' ++ m.bytes.drop (m.base + pre.length + xs.length - m.base + ys'.length)) =
      pre ++ (xs ++ (ys' ++ zs)) ++ post := by
    rw [hskip, hlen, ← List.length_append, hsplit, List.take_left, ← List.append_assoc _ ys,
      List.drop_left]
    simp
  have hlength := congrArg List.length hnew
  rw [Memory.store, dif_pos hholds]
  refine ⟨_, rfl, ⟨pre, post, hnew, rfl⟩, rfl, congrArg (m.base + ·) (hlength.trans ?_)⟩
  simp only [hbytes, List.length_append, hlen]

/-- The bytes behind known bytes are some bytes. -/
lemma exists_append (h : m.At a bs) {n : ℕ} (hn : a + bs.length + n ≤ m.limit) :
    ∃ cs, cs.length = n ∧ m.At a (bs ++ cs) := by
  obtain ⟨pre, post, hbytes, rfl⟩ := h
  rw [limit, hbytes] at hn
  simp only [List.length_append] at hn
  refine ⟨post.take n, by rw [List.length_take]; omega, pre, post.drop n, ?_, rfl⟩
  rw [hbytes, ← List.append_assoc, List.append_assoc (pre ++ bs), List.take_append_drop]

end At

end Memory

/-! ## Pointers -/

/-- A pointer, with the object it was derived from. -/
structure Ptr where
  mem : Memory
  addr : ℕ

namespace Ptr

/-- `p[i]`. -/
def index (p : Ptr) (i : ℕ) : Run UInt8 := p.mem.load (addPtr p.addr i)

/-- The `n` bytes `p[0]`, …, `p[n-1]` lie in the object. -/
def Holds (p : Ptr) (n : ℕ) : Prop := p.mem.Holds p.addr n

/-- The `n` bytes the pointer points to. -/
def slice (p : Ptr) (n : ℕ) : Run (List UInt8) := p.mem.slice p.addr n

lemma error_of_index {p : Ptr} {i : ℕ} {e : Stop} (h : p.index i = .error e) :
    e = .outOfRange := Memory.error_of_load h

lemma exists_index {p : Ptr} {n i : ℕ} (h : p.Holds n) (hi : i < n) :
    ∃ b, p.index i = .ok b := by
  have hfits := p.mem.fits
  obtain ⟨hbase, hend⟩ := h
  unfold Memory.limit at hend
  apply Memory.exists_load_iff.mpr
  rw [addPtr_of_lt (by omega)]
  exact ⟨by omega, by unfold Memory.limit; omega⟩

/-- A known byte behind a pointer. -/
lemma index_of_at {m : Memory} {a i : ℕ} {bs : List UInt8} (h : m.At a bs) (hi : i < bs.length) :
    (Ptr.mk m a).index i = .ok (bs.getD i 0) := by
  have hlt := h.end_lt
  obtain ⟨pre, post, hbytes, rfl⟩ := h
  have hwrap : addPtr (m.base + pre.length) i = m.base + pre.length + i :=
    addPtr_of_lt (by omega)
  have hskip : m.base + pre.length + i - m.base = pre.length + i := by omega
  simp only [index, hwrap, Memory.load_eq_ok_iff, hskip, hbytes, List.append_assoc]
  rw [List.getElem?_append_right (by omega), Nat.add_sub_cancel_left,
    List.getElem?_append_left hi, List.getD_eq_getElem?_getD]
  exact ⟨by omega, by simp [hi]⟩

end Ptr

end MonoBus
