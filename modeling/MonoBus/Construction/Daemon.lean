import MonoBus.Construction.MessageCalls

/-!
# The daemon (`monobusd.c`)

A packet is a message or a bundle of packets.  Messages of a bundle with the immediate timetag
are handled at once, the others are copied to a list that each beat drains as far as it is due.

The recursion of `_handle_osc_packet` and `_handle_osc_bundle` takes a fuel, which bounds its
depth and not its length.  That it stops is a question of its own.
-/

namespace MonoBus

/-! ## Time -/

/-- `NSECS`. -/
def nsecs : ℕ := 1000000000

/-- `JAN_1970`. -/
def jan1970 : ℕ := 2208988800

/-- `struct timespec`, normalized. -/
structure Timespec where
  sec : ℤ
  nsec : ℕ
  nsec_lt : nsec < nsecs

/-- `a && b` as a number. -/
def logicalAnd (a b : UInt64) : ℕ := if a ≠ 0 ∧ b ≠ 0 then 1 else 0

/-- The time `_handle_osc_packet` gives a message.  The fraction of a second is computed from
`timetag && 32`, and truncated when it is assigned. -/
def Timespec.ofTimetag (timetag : UInt64) : Timespec where
  sec := (timetag >>> 32).toNat - jan1970
  nsec := logicalAnd timetag 32 * nsecs / 2 ^ 32
  nsec_lt := by
    unfold logicalAnd nsecs
    split_ifs <;> decide

/-- The fraction of a second is lost. -/
@[simp] lemma Timespec.ofTimetag_nsec (timetag : UInt64) : (ofTimetag timetag).nsec = 0 := by
  unfold ofTimetag logicalAnd nsecs
  split_ifs <;> rfl

/-- `diff` in `_beat`, in nanoseconds.  The source computes it with doubles, which have the same
sign for the seconds a clock and an NTP timetag can give. -/
def Timespec.diff (to_ elmnt : Timespec) : ℤ :=
  (to_.sec - elmnt.sec) * nsecs + (to_.nsec - elmnt.nsec)

/-! ## Scheduled messages -/

/-- `sched_t`.  The source keeps only `to` of the timetag. -/
structure Sched where
  timetag : UInt64
  to_ : Timespec
  buf : Memory
  to_eq : to_ = Timespec.ofTimetag timetag

/-- `sizeof(sched_t)`, which is also the offset of `buf` in it. -/
def sizeofSched : ℕ := 32

/-- `len`. -/
def Sched.len (elmnt : Sched) : ℕ := elmnt.buf.bytes.length

/-- `_sched_append`, on elements of any kind that have a time. -/
def schedAppend {α : Type} (to_ : α → Timespec) : List α → α → List α
  | [], elmnt => [elmnt]
  | ptr :: list, elmnt =>
      if (to_ ptr).sec > (to_ elmnt).sec ∧ (to_ ptr).nsec > (to_ elmnt).nsec then
        elmnt :: ptr :: list
      else ptr :: schedAppend to_ list elmnt

/-- The list in front of which an element stands. -/
def Sched.next (elmnt : Sched) (list : List Sched) : List Sched :=
  (list.dropWhile fun ptr => ptr.buf.base ≠ elmnt.buf.base).tail

@[simp] lemma Sched.next_cons (elmnt : Sched) (list : List Sched) :
    elmnt.next (elmnt :: list) = list := by simp [next]

/-- No element is ever earlier in both seconds and nanoseconds, as all nanoseconds are zero:
elements are appended in the order they arrive. -/
lemma schedAppend_eq (list : List Sched) (elmnt : Sched) :
    schedAppend Sched.to_ list elmnt = list ++ [elmnt] := by
  have hnsec (e : Sched) : e.to_.nsec = 0 := by
    rw [e.to_eq, Timespec.ofTimetag_nsec]
  induction list with
  | nil => rfl
  | cons ptr list ih => simp [schedAppend, hnsec, ih]

/-! ## The environment -/

/-- What `malloc` answers to the `k`-th request, for a number of bytes. -/
structure Malloc where
  run : ℕ → ℕ → Option ℕ
  fits : ∀ {k n a}, run k n = some a → 0 < a ∧ a + n ≤ 2 ^ 63

/-- The functions of the C library that packet handling depends on. -/
structure Libc where
  fnmatch : Fnmatch
  malloc : Malloc

/-- Every request of up to `n` bytes is granted. -/
def Malloc.Grants (malloc : Malloc) (n : ℕ) : Prop :=
  ∀ k m, m ≤ n → (malloc.run k m).isSome = true

/-- An allocator that answers every request of at most `2 ^ 62` bytes. -/
def Malloc.plenty : Malloc where
  run _ n := if n ≤ 2 ^ 62 then some 4096 else none
  fits := by
    intro k n a h
    split_ifs at h
    simp only [Option.some.injEq] at h
    omega

lemma Malloc.plenty_grants {n : ℕ} (h : n ≤ 2 ^ 62) : Malloc.plenty.Grants n := by
  intro k m hm
  simp only [plenty, if_pos (hm.trans h), Option.isSome_some]

/-- The element a message is copied to by that allocator. -/
def Sched.plenty (timetag : UInt64) (bytes : List UInt8) (h : bytes.length ≤ 2 ^ 62) : Sched where
  timetag := timetag
  to_ := .ofTimetag timetag
  buf :=
    { base := 4096 + sizeofSched
      bytes := bytes
      base_pos := by omega
      fits := by
        unfold sizeofSched
        omega }
  to_eq := rfl

/-- An environment in which memory is not short and only `?` is special in patterns. -/
def Libc.simple : Libc where
  fnmatch := .wildcard
  malloc := .plenty

/-- A block at address `a` after `memcpy` has filled it. -/
def Memory.block (a : ℕ) (bytes : List UInt8) : Run Memory :=
  if h : 0 < a ∧ a + bytes.length ≤ 2 ^ 63 then
    .ok { base := a, bytes := bytes, base_pos := h.1, fits := h.2 }
  else .error .outOfRange

/-- The part of `app_t` that packet handling works on, and how often it has called `malloc`. -/
structure App (σ : Type) where
  state : σ
  list : List Sched
  allocs : ℕ

section Handler

variable {σ : Type} (draw : σ → Call → Run σ) (libc : Libc)

/-! ## Packets -/

/-- The branch of `_handle_osc_packet` for a message that is not immediate. -/
def schedule (app : App σ) (timetag : UInt64) (mem : Memory) (buf len : ℕ) : Run (App σ) :=
  match libc.malloc.run app.allocs (addPtr sizeofSched len) with
  | some elmnt => do
      let bytes ← mem.slice buf len
      let block ← Memory.block (elmnt + sizeofSched) bytes
      return {
        app with
        list := schedAppend Sched.to_ app.list ⟨timetag, .ofTimetag timetag, block, rfl⟩
        allocs := app.allocs + 1 }
  | none => .ok { app with allocs := app.allocs + 1 }

mutual

/-- `_handle_osc_packet`. -/
def handleOscPacket : ℕ → App σ → UInt64 → Memory → ℕ → ℕ → Run (App σ)
  | 0, _, _, _, _, _ => .error .outOfFuel
  | fuel + 1, app, timetag, mem, buf, len => do
      let reader := OscReader.initializeAt mem buf len
      if ← reader.isBundle then
        handleOscBundle fuel app reader len
      else if ← reader.isMessage then
        if timetag = oscImmediate then
          let state ← handleOscMessage draw libc.fnmatch reader len app.state
          return { app with state := state }
        else
          schedule libc app timetag mem buf len
      else
        return app

/-- `_handle_osc_bundle`. -/
def handleOscBundle : ℕ → App σ → OscReader → ℕ → Run (App σ)
  | 0, _, _, _ => .error .outOfFuel
  | fuel + 1, app, reader, len => do
      let itm ← reader.itemBegin len
      bundleForeach fuel app itm

/-- The loop of `OSC_READER_BUNDLE_FOREACH` with the body `_handle_osc_bundle` gives it. -/
def bundleForeach : ℕ → App σ → Option (OscItem × OscReader) → Run (App σ)
  | 0, _, _ => .error .outOfFuel
  | _ + 1, app, none => .ok app
  | fuel + 1, app, some (itm, reader) =>
      if reader.itemIsEnd itm then .ok app
      else do
        let app ← handleOscPacket fuel app itm.timetag reader.mem itm.body (sizeOfInt32 itm.size)
        let itm ← reader.itemNext itm
        bundleForeach fuel app itm

end

/-! ## A beat -/

/-- `_beat` takes the packets from the ring buffer. -/
def readRing (fuel : ℕ) (app : App σ) (packets : List Memory) : Run (App σ) :=
  packets.foldlM (fun app buf =>
    handleOscPacket draw libc fuel app oscImmediate buf buf.base buf.bytes.length) app

/-- `_beat` takes the messages that are due from the list. -/
def readList : ℕ → Timespec → App σ → Run (App σ)
  | 0, _, _ => .error .outOfFuel
  | fuel + 1, to_, app =>
      match app.list with
      | [] => .ok app
      | elmnt :: _ =>
          if to_.diff elmnt.to_ < 0 then .ok app
          else do
            let app ← handleOscPacket draw libc fuel app oscImmediate elmnt.buf elmnt.buf.base
              elmnt.len
            readList fuel to_ { app with list := elmnt.next app.list }

end Handler

/-- Handle a packet that lies in an object of its own. -/
def Packet.handle {σ : Type} (draw : σ → Call → Run σ) (libc : Libc) (fuel : ℕ) (app : App σ)
    (timetag : UInt64) {bytes : List UInt8} (pkt : Packet bytes) : Run (App σ) :=
  handleOscPacket draw libc fuel app timetag pkt.mem pkt.mem.base bytes.length

/-- Handle a packet that has other bytes around it. -/
def Embedded.handle {σ : Type} (draw : σ → Call → Run σ) (libc : Libc) (fuel : ℕ) (app : App σ)
    (timetag : UInt64) {bytes : List UInt8} (pkt : Embedded bytes) : Run (App σ) :=
  handleOscPacket draw libc fuel app timetag pkt.mem pkt.buf bytes.length

/-! ## One packet -/

section Packet

variable {σ : Type} {draw : σ → Call → Run σ} {libc : Libc} {mem : Memory} {buf : ℕ}
  {bs : List UInt8}

/-- The first byte tells a message from a bundle. -/
lemma isBundle_of_ne {b : UInt8} {len : ℕ} (h : mem.At buf (b :: bs)) (hb : b ≠ '#'.toUInt8) :
    (OscReader.initializeAt mem buf len).isBundle = .ok false :=
  h.strncmpEq_of_ne hb

lemma isMessage_eq {b : UInt8} {len : ℕ} (h : mem.At buf (b :: bs)) :
    (OscReader.initializeAt mem buf len).isMessage = .ok (decide (b = '/'.toUInt8)) := by
  have hload : mem.load buf = .ok b := h.load
  simp [OscReader.isMessage, OscReader.initializeAt, hload]

lemma handleOscPacket_message (fuel : ℕ) (app : App σ) (timetag : UInt64) (len : ℕ)
    (h : mem.At buf ('/'.toUInt8 :: bs)) :
    handleOscPacket draw libc (fuel + 1) app timetag mem buf len =
      if timetag = oscImmediate then (do
        let state ← handleOscMessage draw libc.fnmatch (OscReader.initializeAt mem buf len) len
          app.state
        .ok { app with state := state })
      else schedule libc app timetag mem buf len := by
  rw [handleOscPacket]
  simp only [isBundle_of_ne h (by decide), isMessage_eq h, Run.ok_bind, Bool.false_eq_true,
    if_false, if_true, Run.pure_eq, decide_true]

/-- A packet that is neither a message nor a bundle is ignored. -/
lemma handleOscPacket_other (fuel : ℕ) (app : App σ) (timetag : UInt64) (len : ℕ) {b : UInt8}
    (h : mem.At buf (b :: bs)) (hbundle : b ≠ '#'.toUInt8) (hmessage : b ≠ '/'.toUInt8) :
    handleOscPacket draw libc (fuel + 1) app timetag mem buf len = .ok app := by
  rw [handleOscPacket]
  simp only [isBundle_of_ne h hbundle, isMessage_eq h, Run.ok_bind, Bool.false_eq_true, if_false,
    Run.pure_eq, decide_eq_false hmessage]

lemma schedule_eq (app : App σ) (timetag : UInt64) (h : mem.At buf bs) :
    (libc.malloc.run app.allocs (sizeofSched + bs.length) = none ∧
      schedule libc app timetag mem buf bs.length = .ok { app with allocs := app.allocs + 1 }) ∨
    ∃ elmnt : Sched, elmnt.timetag = timetag ∧ elmnt.buf.bytes = bs ∧
      (libc.malloc.run app.allocs (sizeofSched + bs.length)).isSome ∧
      schedule libc app timetag mem buf bs.length =
        .ok { app with list := app.list ++ [elmnt], allocs := app.allocs + 1 } := by
  have hlt := h.end_lt
  have hsize : addPtr sizeofSched bs.length = sizeofSched + bs.length :=
    addPtr_of_lt (by unfold sizeofSched; omega)
  unfold schedule
  rw [hsize]
  cases hmalloc : libc.malloc.run app.allocs (sizeofSched + bs.length) with
  | none => exact .inl ⟨rfl, rfl⟩
  | some a =>
      have hfits := libc.malloc.fits hmalloc
      have hblock : 0 < a + sizeofSched ∧ a + sizeofSched + bs.length ≤ 2 ^ 63 := by omega
      refine .inr ⟨⟨timetag, .ofTimetag timetag, ⟨a + sizeofSched, bs, hblock.1, hblock.2⟩, rfl⟩,
        rfl, rfl, rfl, ?_⟩
      simp only [h.slice, Memory.block, dif_pos hblock, Run.ok_bind, Run.pure_eq, schedAppend_eq]

end Packet

/-! ## What a packet does to the list -/

/-- An element is a copy of a packet that starts with a slash, if it has any bytes. -/
def Sched.IsMessage (elmnt : Sched) : Prop := ∀ b ∈ elmnt.buf.bytes.head?, b = '/'.toUInt8

section List

variable {σ : Type} {draw : σ → Call → Run σ} {libc : Libc}

lemma schedule_cases {app app' : App σ} {timetag : UInt64} {mem : Memory} {buf len : ℕ}
    (h : schedule libc app timetag mem buf len = .ok app') :
    app' = { app with allocs := app.allocs + 1 } ∨
      ∃ elmnt : Sched, mem.slice buf len = .ok elmnt.buf.bytes ∧
        app' = { app with list := app.list ++ [elmnt], allocs := app.allocs + 1 } := by
  unfold schedule at h
  split at h
  · obtain ⟨bytes, hbytes, h⟩ := Run.bind_eq_ok.mp h
    obtain ⟨block, hblock, h⟩ := Run.bind_eq_ok.mp h
    refine .inr ⟨⟨timetag, .ofTimetag timetag, block, rfl⟩, ?_, ?_⟩
    · unfold Memory.block at hblock
      split_ifs at hblock
      rw [hbytes, ← Except.ok.inj hblock]
    · simpa [schedAppend_eq] using h.symm
  · exact .inl (Except.ok.inj h).symm

lemma handleOscPacket_cases {fuel : ℕ} {app app' : App σ} {timetag : UInt64} {mem : Memory}
    {buf len : ℕ} (h : handleOscPacket draw libc (fuel + 1) app timetag mem buf len = .ok app') :
    ((OscReader.initializeAt mem buf len).isBundle = .ok true ∧
      handleOscBundle draw libc fuel app (OscReader.initializeAt mem buf len) len = .ok app') ∨
    (∃ state, app' = { app with state := state }) ∨
    (mem.load buf = .ok '/'.toUInt8 ∧ schedule libc app timetag mem buf len = .ok app') := by
  rw [handleOscPacket] at h
  obtain ⟨isBundle, hbundle, h⟩ := Run.bind_eq_ok.mp h
  cases isBundle with
  | true => exact .inl ⟨hbundle, h⟩
  | false =>
      obtain ⟨isMessage, hmessage, h⟩ := Run.bind_eq_ok.mp h
      cases isMessage with
      | false => exact .inr (.inl ⟨app.state, (Except.ok.inj h).symm⟩)
      | true =>
          rw [if_pos rfl] at h
          split_ifs at h
          · obtain ⟨state, -, h⟩ := Run.bind_eq_ok.mp h
            exact .inr (.inl ⟨state, (Except.ok.inj h).symm⟩)
          · obtain ⟨b, hb, hslash⟩ := Run.bind_eq_ok.mp hmessage
            have hb' : b = '/'.toUInt8 := by simpa using hslash
            exact .inr (.inr ⟨hb' ▸ hb, h⟩)

/-- A slice starts with the byte that can be read there. -/
lemma head_of_slice {mem : Memory} {buf len : ℕ} {bytes : List UInt8} {b : UInt8}
    (hslice : mem.slice buf len = .ok bytes) (hload : mem.load buf = .ok b) :
    ∀ c ∈ bytes.head?, c = b := by
  obtain ⟨-, hbyte⟩ := Memory.load_eq_ok_iff.mp hload
  unfold Memory.slice Memory.from_ at hslice
  split_ifs at hslice
  rw [← Except.ok.inj hslice]
  intro c hc
  cases len with
  | zero => simp at hc
  | succ len =>
      rw [List.head?_take, List.head?_drop, hbyte] at hc
      simpa [eq_comm] using hc

/-- **Packet handling, once and for all.**  What holds of the application and is kept by a new
bitmap, by a failed allocation and by one more message at the end of the list is kept by the
handling of any packet. -/
theorem handleOscPacket_keeps {P : App σ → Prop}
    (hstate : ∀ app state, P app → P { app with state := state })
    (hfail : ∀ app, P app → P { app with allocs := app.allocs + 1 })
    (happend : ∀ app (elmnt : Sched), elmnt.IsMessage → P app →
      P { app with list := app.list ++ [elmnt], allocs := app.allocs + 1 }) (fuel : ℕ) :
    (∀ app app' timetag mem buf len,
      handleOscPacket draw libc fuel app timetag mem buf len = .ok app' → P app → P app') ∧
    (∀ app app' reader len,
      handleOscBundle draw libc fuel app reader len = .ok app' → P app → P app') ∧
    (∀ app app' itm, bundleForeach draw libc fuel app itm = .ok app' → P app → P app') := by
  induction fuel with
  | zero =>
      refine ⟨?_, ?_, ?_⟩ <;> intros
      all_goals simp_all [handleOscPacket, handleOscBundle, bundleForeach]
  | succ fuel ih =>
      obtain ⟨ihPacket, ihBundle, ihForeach⟩ := ih
      refine ⟨?_, ?_, ?_⟩
      · intro app app' timetag mem buf len h hP
        obtain ⟨-, h⟩ | ⟨state, rfl⟩ | ⟨hslash, h⟩ := handleOscPacket_cases h
        · exact ihBundle _ _ _ _ h hP
        · exact hstate _ _ hP
        · obtain rfl | ⟨elmnt, hslice, rfl⟩ := schedule_cases h
          · exact hfail _ hP
          · exact happend _ _ (head_of_slice hslice hslash) hP
      · intro app app' reader len h hP
        rw [handleOscBundle] at h
        obtain ⟨itm, -, h⟩ := Run.bind_eq_ok.mp h
        exact ihForeach _ _ _ h hP
      · intro app app' itm h hP
        cases itm with
        | none =>
            rw [bundleForeach] at h
            exact Except.ok.inj h ▸ hP
        | some itm =>
            rw [bundleForeach] at h
            split_ifs at h
            · exact Except.ok.inj h ▸ hP
            · obtain ⟨mid, hmid, h⟩ := Run.bind_eq_ok.mp h
              obtain ⟨next, -, h⟩ := Run.bind_eq_ok.mp h
              exact ihForeach _ _ _ h (ihPacket _ _ _ _ _ _ hmid hP)

/-- Handling that comes to an end with some fuel comes to the same end with more. -/
theorem handleOscPacket_succ (fuel : ℕ) :
    (∀ app timetag mem buf len, Ends (handleOscPacket draw libc fuel app timetag mem buf len) →
      handleOscPacket draw libc (fuel + 1) app timetag mem buf len =
        handleOscPacket draw libc fuel app timetag mem buf len) ∧
    (∀ app reader len, Ends (handleOscBundle draw libc fuel app reader len) →
      handleOscBundle draw libc (fuel + 1) app reader len =
        handleOscBundle draw libc fuel app reader len) ∧
    (∀ app itm, Ends (bundleForeach draw libc fuel app itm) →
      bundleForeach draw libc (fuel + 1) app itm = bundleForeach draw libc fuel app itm) := by
  induction fuel with
  | zero =>
      refine ⟨?_, ?_, ?_⟩ <;> intros
      all_goals simp_all [Ends, handleOscPacket, handleOscBundle, bundleForeach]
  | succ fuel ih =>
      obtain ⟨ihPacket, ihBundle, ihForeach⟩ := ih
      refine ⟨?_, ?_, ?_⟩
      · intro app timetag mem buf len h
        rw [handleOscPacket] at h
        rw [handleOscPacket, handleOscPacket]
        cases hbundle : (OscReader.initializeAt mem buf len).isBundle with
        | error e => rfl
        | ok isBundle =>
            rw [hbundle] at h
            cases isBundle with
            | true => exact ihBundle _ _ _ h
            | false => rfl
      · intro app reader len h
        rw [handleOscBundle] at h
        rw [handleOscBundle, handleOscBundle]
        cases hitm : reader.itemBegin len with
        | error e => rfl
        | ok itm =>
            rw [hitm] at h
            exact ihForeach _ _ h
      · intro app itm h
        cases itm with
        | none => rfl
        | some itm =>
            rw [bundleForeach] at h
            rw [bundleForeach, bundleForeach]
            split_ifs at h ⊢
            · rfl
            · rw [ihPacket _ _ _ _ _ h.left]
              cases hmid : handleOscPacket draw libc fuel app itm.1.timetag itm.2.mem itm.1.body
                  (sizeOfInt32 itm.1.size) with
              | error e => rfl
              | ok mid =>
                  rw [hmid] at h
                  cases hnext : itm.2.itemNext itm.1 with
                  | error e => rfl
                  | ok next =>
                      simp only [Run.ok_bind, hnext] at h ⊢
                      exact ihForeach _ _ h

lemma handleOscPacket_of_le {fuel fuel' : ℕ} (hle : fuel ≤ fuel') {app : App σ}
    {timetag : UInt64} {mem : Memory} {buf len : ℕ}
    (h : Ends (handleOscPacket draw libc fuel app timetag mem buf len)) :
    handleOscPacket draw libc fuel' app timetag mem buf len =
      handleOscPacket draw libc fuel app timetag mem buf len := by
  induction fuel', hle using Nat.le_induction with
  | base => rfl
  | succ fuel' _ ih =>
      rw [← ih] at h ⊢
      exact (handleOscPacket_succ fuel').1 _ _ _ _ _ h

lemma handleOscPacket_mono {fuel fuel' : ℕ} (hle : fuel ≤ fuel') {app app' : App σ}
    {timetag : UInt64} {mem : Memory} {buf len : ℕ}
    (h : handleOscPacket draw libc fuel app timetag mem buf len = .ok app') :
    handleOscPacket draw libc fuel' app timetag mem buf len = .ok app' :=
  (handleOscPacket_of_le hle (h ▸ ends_ok app')).trans h

/-- The list holds messages only. -/
def App.ListsMessages (app : App σ) : Prop := ∀ elmnt ∈ app.list, elmnt.IsMessage

lemma handleOscPacket_listsMessages {fuel : ℕ} {app app' : App σ} {timetag : UInt64}
    {mem : Memory} {buf len : ℕ}
    (h : handleOscPacket draw libc fuel app timetag mem buf len = .ok app')
    (hlist : app.ListsMessages) : app'.ListsMessages := by
  refine (handleOscPacket_keeps ?_ ?_ ?_ fuel).1 _ _ _ _ _ _ h hlist
  · exact fun _ _ h => h
  · exact fun _ h => h
  · intro app elmnt hmessage h e he
    rcases List.mem_append.mp he with he | he
    · exact h e he
    · rw [List.mem_singleton.mp he]
      exact hmessage

lemma readRing_listsMessages {fuel : ℕ} {packets : List Memory} {app app' : App σ}
    (h : readRing draw libc fuel app packets = .ok app') (hlist : app.ListsMessages) :
    app'.ListsMessages := by
  induction packets generalizing app with
  | nil =>
      rw [← Except.ok.inj h]
      exact hlist
  | cons buf packets ih =>
      rw [readRing, List.foldlM_cons] at h
      obtain ⟨mid, hmid, h⟩ := Run.bind_eq_ok.mp h
      exact ih h (handleOscPacket_listsMessages hmid hlist)

/-! ## Draining the list -/

/-- Handle a message from the list. -/
def Sched.handle (draw : σ → Call → Run σ) (libc : Libc) (state : σ) (elmnt : Sched) : Run σ :=
  handleOscMessage draw libc.fnmatch
    (OscReader.initializeAt elmnt.buf elmnt.buf.base elmnt.len) elmnt.len state

/-- Whether the loop of `_beat` goes on at an element. -/
def Timespec.reaches (to_ : Timespec) (elmnt : Sched) : Bool := 0 ≤ to_.diff elmnt.to_

/-- A message from the list leaves the list as it is. -/
lemma handleOscPacket_elmnt {fuel : ℕ} {app app' : App σ} {elmnt : Sched}
    (hmessage : elmnt.IsMessage)
    (h : handleOscPacket draw libc fuel app oscImmediate elmnt.buf elmnt.buf.base elmnt.len =
      .ok app') :
    ∃ state, elmnt.handle draw libc app.state = .ok state ∧
      app' = { app with state := state } := by
  cases fuel with
  | zero => simp [handleOscPacket] at h
  | succ fuel =>
      have hbase := elmnt.buf.at_base
      cases hbytes : elmnt.buf.bytes with
      | nil =>
          -- the first byte cannot be read
          have hload : elmnt.buf.load elmnt.buf.base = .error .outOfRange := by
            simp [Memory.load, hbytes]
          have hbundle : (OscReader.initializeAt elmnt.buf elmnt.buf.base elmnt.len).isBundle =
              .error .outOfRange := by
            change (elmnt.buf.load elmnt.buf.base >>= _) = _
            rw [hload]
            rfl
          rw [handleOscPacket] at h
          simp only [hbundle, Run.error_bind, reduceCtorEq] at h
      | cons b bs =>
          have hslash : b = '/'.toUInt8 := hmessage b (by simp [hbytes])
          rw [hbytes, hslash] at hbase
          rw [handleOscPacket_message fuel app _ _ hbase, if_pos rfl] at h
          obtain ⟨state, hstate, h⟩ := Run.bind_eq_ok.mp h
          exact ⟨state, hstate, (Except.ok.inj h).symm⟩

/-- **The loop of `_beat`.**  It handles the messages at the front of the list that it reaches,
in order, and takes them off the list. -/
theorem readList_eq_ok {fuel : ℕ} {to_ : Timespec} {app app' : App σ}
    (hlist : app.ListsMessages) (h : readList draw libc fuel to_ app = .ok app') :
    (app.list.takeWhile to_.reaches).foldlM (Sched.handle draw libc) app.state =
        .ok app'.state ∧
      app'.list = app.list.dropWhile to_.reaches := by
  induction fuel generalizing app with
  | zero => simp [readList] at h
  | succ fuel ih =>
      rw [readList] at h
      split at h
      next hnil =>
        rw [← Except.ok.inj h]
        simp [hnil]
      next elmnt rest hcons =>
        split_ifs at h with hdiff
        · have hstop : to_.reaches elmnt ≠ true := by
            simpa [Timespec.reaches] using hdiff
          rw [← Except.ok.inj h, hcons, List.takeWhile_cons_of_neg hstop,
            List.dropWhile_cons_of_neg hstop]
          exact ⟨rfl, rfl⟩
        · have hgo : to_.reaches elmnt = true := by
            simpa [Timespec.reaches] using hdiff
          obtain ⟨mid, hmid, h⟩ := Run.bind_eq_ok.mp h
          obtain ⟨state, hstate, rfl⟩ := handleOscPacket_elmnt
            (hlist elmnt (hcons ▸ List.mem_cons_self)) hmid
          have hnext : elmnt.next app.list = rest := by rw [hcons, Sched.next_cons]
          have hlist' : App.ListsMessages ⟨state, elmnt.next app.list, app.allocs⟩ := by
            intro e he
            rw [hnext] at he
            exact hlist e (hcons ▸ List.mem_cons_of_mem _ he)
          obtain ⟨hfold, hleft⟩ := ih hlist' h
          rw [hcons, List.takeWhile_cons_of_pos hgo, List.dropWhile_cons_of_pos hgo,
            List.foldlM_cons, hstate, ← hnext]
          exact ⟨hfold, hleft⟩

end List

end MonoBus
