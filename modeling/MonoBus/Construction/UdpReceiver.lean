import MonoBus.Properties.HandOff

/-!
# The receiving thread (`_lv2_osc_stream_run_udp`)

The thread of `_loop` requests space in the ring, lets `recvfrom` copy a datagram to it and advances
the ring, until there is no space or no datagram; then it is called again.  The thread of `_beat`
reads the ring meanwhile, and the network appends datagrams to the queue of the socket.  A datagram
may be longer than the size that is requested: `recvfrom` copies as much of it as the ring gives
out, and `capacity_iff` says what becomes of that.
-/

namespace MonoBus

/-- `LV2_OSC_STREAM_REQBUF`. -/
def streamReqbuf : ℕ := 1024

/-- Where the thread is: in front of `write_req`, in it, in front of `recvfrom`, in it with the
bytes of a datagram that have been copied, and in `write_adv`. -/
inductive UdpPc
  | writeReq
  | requesting
  | recvfrom
  | copying (datagram : List UInt8) (got : ℕ)
  | writeAdv (datagram : List UInt8)

/-- The ring, the queue of the socket and the thread.  The last field records all datagrams that
have arrived at the socket. -/
structure UdpReceiver where
  ring : Varchunk
  queue : List (List UInt8)
  pc : UdpPc
  arrived : List (List UInt8)

namespace UdpPc

/-- The thread is in a function of the ring. -/
def InRing : UdpPc → Prop
  | .requesting => True
  | .writeAdv _ => True
  | _ => False

lemma inRing_requesting {pc : UdpPc} (h : pc = .requesting) : pc.InRing := by
  rw [h]
  trivial

lemma inRing_writeAdv {pc : UdpPc} {datagram : List UInt8} (h : pc = .writeAdv datagram) :
    pc.InRing := by
  rw [h]
  trivial

/-- Where the thread is behind a step of the ring: `write_req` returns with or without a grant, and
`write_adv` goes back to it. -/
def afterRing (pc : UdpPc) : ProducerPc → UdpPc
  | .idle => .writeReq
  | .granted _ _ => .recvfrom
  | _ => pc

/-- The datagram that is neither in the queue nor in the ring. -/
def inflight : UdpPc → List (List UInt8)
  | .copying datagram _ => [datagram]
  | .writeAdv datagram => [datagram]
  | _ => []

end UdpPc

/-- Steps of the network, of the thread of `_beat` and of the thread of `_loop`.  A datagram
without bytes is taken for the end of the connection. -/
inductive UdpStep (size : ℕ) : UdpReceiver → UdpReceiver → Prop
  | arrive (u : UdpReceiver) (datagram : List UInt8) :
      UdpStep size u { u with
        queue := u.queue ++ [datagram]
        arrived := u.arrived ++ [datagram] }
  | consume (u : UdpReceiver) : UdpStep size u { u with ring := consumerStep size u.ring }
  | request (u : UdpReceiver) : u.pc = .writeReq →
      UdpStep size u { u with
        ring := { u.ring with producer := .loadHead streamReqbuf }
        pc := .requesting }
  | inRing (u : UdpReceiver) {stored : Option ℕ} {ring : Varchunk} : u.pc.InRing →
      ProducerStep size withinMinimum u.ring stored ring →
      UdpStep size u { u with ring := ring, pc := u.pc.afterRing ring.producer }
  | empty (u : UdpReceiver) : u.pc = .recvfrom → u.queue = [] →
      UdpStep size u { u with pc := .writeReq }
  | zero (u : UdpReceiver) {queue : List (List UInt8)} : u.pc = .recvfrom →
      u.queue = [] :: queue →
      UdpStep size u { u with queue := queue, pc := .writeReq }
  | recv (u : UdpReceiver) {datagram : List UInt8} {queue : List (List UInt8)} {r : Reservation}
      {minimum : ℕ} : u.pc = .recvfrom → u.queue = datagram :: queue → datagram ≠ [] →
      u.ring.producer = .granted r minimum →
      UdpStep size u { u with queue := queue, pc := .copying (datagram.take r.rsvd) 0 }
  | copy (u : UdpReceiver) {datagram : List UInt8} {got : ℕ} {r : Reservation} {minimum : ℕ}
      (h : got < datagram.length) : u.pc = .copying datagram got →
      u.ring.producer = .granted r minimum →
      UdpStep size u { u with
        ring := { u.ring with buf := Function.update u.ring.buf (r.ptr + got) datagram[got] }
        pc := .copying datagram (got + 1) }
  | recvd (u : UdpReceiver) {datagram : List UInt8} {r : Reservation} {minimum : ℕ} :
      u.pc = .copying datagram datagram.length → u.ring.producer = .granted r minimum →
      UdpStep size u { u with
        ring := { u.ring with
          producer := .advance r datagram.length
          advancing := bytesAt u.ring.buf r.ptr datagram.length }
        pc := .writeAdv datagram }

/-- An empty ring and an empty queue. -/
def udpSystem (size : ℕ) : System UdpReceiver where
  init u := ∃ buf, u = ⟨.new buf, [], .writeReq, []⟩
  step := UdpStep size

/-! ## The invariant -/

/-- What the thread knows. -/
def UdpOk (ring : Varchunk) : UdpPc → Prop
  | .writeReq => ring.producer = .idle ∨ ∃ r, ring.producer = .granted r streamReqbuf
  | .requesting => ring.producer = .loadHead streamReqbuf ∨
      ∃ head, ring.producer = .loadTail streamReqbuf head
  | .recvfrom => ∃ r, ring.producer = .granted r streamReqbuf
  | .copying datagram got => datagram ≠ [] ∧ datagram.length ≤ streamReqbuf ∧
      got ≤ datagram.length ∧
        ∃ r, ring.producer = .granted r streamReqbuf ∧
          HoldsAt ring.buf r.ptr (datagram.take got)
  | .writeAdv datagram => datagram ≠ [] ∧ ∃ r,
      (ring.producer = .advance r datagram.length ∨
        ∃ head stores, ring.producer = .header r datagram.length head stores) ∧
      ring.advancing = datagram

/-- The datagrams with bytes. -/
def payloads (datagrams : List (List UInt8)) : List (List UInt8) := datagrams.filter (· ≠ [])

lemma payloads_append (xs ys : List (List UInt8)) :
    payloads (xs ++ ys) = payloads xs ++ payloads ys := List.filter_append _ _

lemma payloads_cons_of_ne {d : List UInt8} (hd : d ≠ []) (ds : List (List UInt8)) :
    payloads (d :: ds) = d :: payloads ds := by
  rw [payloads, List.filter_cons_of_pos (by simpa using hd)]
  rfl

/-- No datagram that has arrived is longer than the size that is requested. -/
def ShortDatagrams (u : UdpReceiver) : Prop := ∀ d ∈ u.arrived, d.length ≤ streamReqbuf

/-- Every datagram that has arrived is in the ring, in flight or in the queue. -/
structure UdpInv (size : ℕ) (u : UdpReceiver) : Prop where
  ring : ∃ lo ps, RingInv size u.ring lo ps
  short : ShortDatagrams u
  waiting : u.queue ⊆ u.arrived
  thread : UdpOk u.ring u.pc
  account : payloads u.arrived =
    u.ring.advanced.map Prod.snd ++ (u.pc.inflight ++ payloads u.queue)

/-! ## Stores of the thread -/

/-- Bytes that stand at an address are what is read there. -/
lemma bytesAt_of_holdsAt {buf : ℕ → UInt8} {a : ℕ} {bs : List UInt8} (h : HoldsAt buf a bs) :
    bytesAt buf a bs.length = bs := by
  apply List.ext_getElem (length_bytesAt _ _ _)
  intro i hi hi'
  rw [← holdsAt_bytesAt buf a bs.length i hi, h i hi']

lemma HoldsAt.copy {buf : ℕ → UInt8} {a got : ℕ} {bs : List UInt8} (h : HoldsAt buf a (bs.take got))
    (hlt : got < bs.length) :
    HoldsAt (Function.update buf (a + got) bs[got]) a (bs.take (got + 1)) := by
  rw [List.take_succ_eq_append_getElem hlt]
  have hlen : (bs.take got).length = got := List.length_take_of_le hlt.le
  refine (h.update (fun i hi => by omega) _).append fun i hi => ?_
  obtain rfl : i = 0 := by simpa using hi
  simp [hlen]

/-! ## Steps -/

lemma granted_inj {s : Varchunk} {r r' : Reservation} {minimum minimum' : ℕ}
    (h : s.producer = .granted r minimum) (h' : s.producer = .granted r' minimum') :
    r = r' ∧ minimum = minimum' := ProducerPc.granted.inj (h.symm.trans h')

lemma consumerStep_same (size : ℕ) (s : Varchunk) :
    (consumerStep size s).buf = s.buf ∧ (consumerStep size s).producer = s.producer ∧
      (consumerStep size s).advancing = s.advancing ∧
      (consumerStep size s).advanced = s.advanced := by
  unfold consumerStep
  split
  all_goals first
    | exact ⟨rfl, rfl, rfl, rfl⟩
    | (split_ifs <;> exact ⟨rfl, rfl, rfl, rfl⟩)

/-- What the thread knows depends on the buffer, on its own place and on the chunk that it is
advancing. -/
lemma UdpOk.congr {s t : Varchunk} {pc : UdpPc} (hbuf : t.buf = s.buf)
    (hproducer : t.producer = s.producer) (hadvancing : t.advancing = s.advancing)
    (h : UdpOk s pc) : UdpOk t pc := by
  cases pc with
  | _ => simpa only [UdpOk, hbuf, hproducer, hadvancing] using h

section Inversion

variable {size : ℕ} {permit : Reservation → ℕ → ℕ → Prop} {s t : Varchunk} {stored : Option ℕ}

lemma ProducerStep.of_loadHead (h : ProducerStep size permit s stored t) {minimum : ℕ}
    (hpc : s.producer = .loadHead minimum) :
    t = { s with producer := .loadTail minimum s.head } := by
  cases h <;> simp_all

lemma ProducerStep.of_loadTail (h : ProducerStep size permit s stored t) {minimum head : ℕ}
    (hpc : s.producer = .loadTail minimum head) :
    t = { s with
      producer := .ofRequest minimum (varchunkWriteRequestMax size head s.tail minimum) } := by
  cases h <;> simp_all

lemma ProducerStep.of_advance (h : ProducerStep size permit s stored t) {r : Reservation}
    {written : ℕ} (hpc : s.producer = .advance r written) :
    t = { s with
      producer := .header r written s.head (headerStores s.head r.gapd written) } := by
  cases h <;> simp_all

lemma ProducerStep.of_header (h : ProducerStep size permit s stored t) {r : Reservation}
    {written head : ℕ} {stores : List (ℕ × UInt8)}
    (hpc : s.producer = .header r written head stores) :
    (∃ x b rest, stores = (x, b) :: rest ∧ t = { s with
      buf := Function.update s.buf x b
      producer := .header r written head rest }) ∨
    stores = [] ∧ t = { s with
      head := (head + (r.gapd + 8 + varchunkPad written)) &&& (size - 1)
      producer := .idle
      advanced := s.advanced ++ [(r.ptr, s.advancing)] } := by
  cases h with
  | storeHeader hpc' =>
      obtain ⟨rfl, rfl, rfl, rfl⟩ := ProducerPc.header.inj (hpc'.symm.trans hpc)
      exact .inl ⟨_, _, _, rfl, rfl⟩
  | _ => simp_all

end Inversion

section Steps

variable {size k : ℕ} {u u' : UdpReceiver}

/-- A grant has room for every datagram. -/
lemma RingInv.reqbuf_le_rsvd {s : Varchunk} {lo : ℕ} {ps : List Piece} {r : Reservation}
    (h : RingInv size s lo ps) (hpc : s.producer = .granted r streamReqbuf) :
    streamReqbuf ≤ r.rsvd := by
  have hgranted := h.producer
  rw [hpc] at hgranted
  have hmin := hgranted.2.minimum_le
  have hpad := le_varchunkPad (show streamReqbuf < 2 ^ 31 by norm_num [streamReqbuf])
  omega

lemma UdpInv.requesting (h : UdpInv size u) (hsize : size = 2 ^ k) (hk : size ≤ 2 ^ 31)
    {stored : Option ℕ} {ring : Varchunk} (hpc : u.pc = .requesting)
    (hst : ProducerStep size withinMinimum u.ring stored ring) :
    UdpInv size { u with ring := ring, pc := UdpPc.requesting.afterRing ring.producer } := by
  obtain ⟨lo, ps, hring⟩ := h.ring
  have hring' := hring.producerStep hsize hk permits_withinMinimum hst
  have hthread := h.thread
  have haccount := h.account
  rw [hpc] at hthread haccount
  obtain hproducer | ⟨head, hproducer⟩ := hthread
  · obtain rfl := hst.of_loadHead hproducer
    exact ⟨⟨lo, hring'⟩, h.short, h.waiting, .inr ⟨_, rfl⟩, haccount⟩
  · obtain rfl := hst.of_loadTail hproducer
    refine ⟨⟨lo, hring'⟩, h.short, h.waiting, ?_, ?_⟩
    · dsimp only
      cases varchunkWriteRequestMax size head u.ring.tail streamReqbuf with
      | none => exact .inl rfl
      | some r => exact ⟨r, rfl⟩
    · dsimp only
      cases varchunkWriteRequestMax size head u.ring.tail streamReqbuf with
      | none => exact haccount
      | some r => exact haccount

lemma UdpInv.advancing (h : UdpInv size u) (hsize : size = 2 ^ k) (hk : size ≤ 2 ^ 31)
    {stored : Option ℕ} {ring : Varchunk} {datagram : List UInt8} (hpc : u.pc = .writeAdv datagram)
    (hst : ProducerStep size withinMinimum u.ring stored ring) :
    UdpInv size
      { u with ring := ring, pc := (UdpPc.writeAdv datagram).afterRing ring.producer } := by
  obtain ⟨lo, ps, hring⟩ := h.ring
  have hring' := hring.producerStep hsize hk permits_withinMinimum hst
  have hthread := h.thread
  have haccount := h.account
  rw [hpc] at hthread haccount
  obtain ⟨hne, r, hproducer | ⟨head, stores, hproducer⟩, hadvancing⟩ := hthread
  · obtain rfl := hst.of_advance hproducer
    exact ⟨⟨lo, hring'⟩, h.short, h.waiting, ⟨hne, r, .inr ⟨_, _, rfl⟩, hadvancing⟩, haccount⟩
  · obtain ⟨x, b, rest, rfl, rfl⟩ | ⟨rfl, rfl⟩ := hst.of_header hproducer
    · exact ⟨⟨lo, hring'⟩, h.short, h.waiting, ⟨hne, r, .inr ⟨_, _, rfl⟩, hadvancing⟩, haccount⟩
    · refine ⟨⟨lo, hring'⟩, h.short, h.waiting, .inl rfl, ?_⟩
      rw [haccount, hadvancing]
      simp [UdpPc.inflight, UdpPc.afterRing]

lemma UdpInv.recv (h : UdpInv size u) {datagram : List UInt8} {queue : List (List UInt8)}
    {r : Reservation} (hpc : u.pc = .recvfrom) (hqueue : u.queue = datagram :: queue)
    (hne : datagram ≠ []) (hproducer : u.ring.producer = .granted r streamReqbuf) :
    UdpInv size { u with queue := queue, pc := .copying (datagram.take r.rsvd) 0 } := by
  obtain ⟨lo, ps, hring⟩ := h.ring
  have haccount := h.account
  rw [hpc] at haccount
  have hwaiting := hqueue ▸ h.waiting
  have hle : datagram.length ≤ streamReqbuf := h.short datagram (hwaiting List.mem_cons_self)
  have hroom := hring.reqbuf_le_rsvd hproducer
  have htake : datagram.take r.rsvd = datagram := List.take_of_length_le (by omega)
  refine ⟨h.ring, h.short, fun d hd => hwaiting (List.mem_cons_of_mem _ hd), ?_, ?_⟩
  · rw [htake]
    exact ⟨hne, hle, Nat.zero_le _, r, hproducer, fun i hi => by simp at hi⟩
  · rw [haccount, hqueue, htake, payloads_cons_of_ne hne]
    rfl

theorem UdpInv.step (h : UdpInv size u) (hsize : size = 2 ^ k) (hk : size ≤ 2 ^ 31)
    (hst : UdpStep size u u') (hshort : ShortDatagrams u') : UdpInv size u' := by
  obtain ⟨lo, ps, hring⟩ := h.ring
  have hthread := h.thread
  have haccount := h.account
  cases hst with
  | arrive datagram =>
      have hwaiting : u.queue ++ [datagram] ⊆ u.arrived ++ [datagram] :=
        List.append_subset.mpr ⟨List.subset_append_of_subset_left _ h.waiting,
          List.subset_append_right _ _⟩
      refine ⟨h.ring, hshort, hwaiting, hthread, ?_⟩
      rw [payloads_append, haccount, payloads_append]
      simp only [List.append_assoc]
  | consume =>
      obtain ⟨hbuf, hproducer, hadvancing, hadvanced⟩ := consumerStep_same size u.ring
      exact ⟨hring.consumerStep hsize, h.short, h.waiting,
        hthread.congr hbuf hproducer hadvancing, by rw [haccount, hadvanced]⟩
  | request hpc =>
      rw [hpc] at haccount
      exact ⟨⟨lo, ps, hring.producerPc (by norm_num [streamReqbuf, ProducerOk]) trivial⟩, h.short,
        h.waiting, .inl rfl, haccount⟩
  | inRing hin hst =>
      cases hpc : u.pc with
      | requesting => exact h.requesting hsize hk hpc hst
      | writeAdv datagram => exact h.advancing hsize hk hpc hst
      | _ => exact absurd hin (by rw [hpc]; exact not_false)
  | empty hpc hqueue =>
      rw [hpc] at hthread haccount
      exact ⟨h.ring, h.short, h.waiting, .inr hthread, haccount⟩
  | zero hpc hqueue =>
      rw [hpc] at hthread haccount
      have hwaiting := hqueue ▸ h.waiting
      refine ⟨h.ring, h.short, fun d hd => hwaiting (List.mem_cons_of_mem _ hd), .inr hthread, ?_⟩
      rw [haccount, hqueue]
      rfl
  | @recv datagram queue r minimum hpc hqueue hne hproducer =>
      rw [hpc] at hthread
      obtain ⟨r', hr'⟩ := hthread
      obtain ⟨rfl, rfl⟩ := granted_inj hr' hproducer
      exact h.recv hpc hqueue hne hproducer
  | @copy datagram got r minimum hlt hpc hproducer =>
      rw [hpc] at hthread haccount
      obtain ⟨hne, hle, -, r', hr', hholds⟩ := hthread
      obtain ⟨rfl, rfl⟩ := granted_inj hr' hproducer
      have hring' := hring.producerStep hsize hk permits_withinMinimum
        (.fill u.ring got datagram[got] hproducer (show got + 1 ≤ streamReqbuf by omega))
      exact ⟨⟨lo, hring'⟩, h.short, h.waiting,
        ⟨hne, hle, hlt, r', hproducer, hholds.copy hlt⟩, haccount⟩
  | @recvd datagram r minimum hpc hproducer =>
      rw [hpc] at hthread haccount
      obtain ⟨hne, hle, -, r', hr', hholds⟩ := hthread
      obtain ⟨rfl, rfl⟩ := granted_inj hr' hproducer
      have hring' := hring.producerStep hsize hk permits_withinMinimum
        (.advance u.ring datagram.length hproducer hle)
      rw [List.take_length] at hholds
      exact ⟨⟨lo, hring'⟩, h.short, h.waiting,
        ⟨hne, r', .inl rfl, bytesAt_of_holdsAt hholds⟩, haccount⟩

end Steps

lemma UdpStep.arrived_subset {size : ℕ} {u u' : UdpReceiver} (h : UdpStep size u u') :
    u.arrived ⊆ u'.arrived := by
  cases h with
  | arrive datagram => exact List.subset_append_left _ _
  | _ => exact List.Subset.refl _

lemma ShortDatagrams.of_step {size : ℕ} {u u' : UdpReceiver} (hst : UdpStep size u u')
    (h : ShortDatagrams u') : ShortDatagrams u := fun d hd => h d (hst.arrived_subset hd)

theorem udpInv_of_reachable {k : ℕ} (hk : k ≤ 31) {u : UdpReceiver}
    (h : (udpSystem (2 ^ k)).Reachable u) (hshort : ShortDatagrams u) : UdpInv (2 ^ k) u := by
  have hle : 2 ^ k ≤ 2 ^ 31 := Nat.pow_le_pow_right (by norm_num) hk
  refine h.invariant (I := fun u => ShortDatagrams u → UdpInv (2 ^ k) u) (fun u hu hshort => ?_)
    (fun u u' hu hst hshort => (hu (hshort.of_step hst)).step rfl hle hst hshort) hshort
  obtain ⟨buf, rfl⟩ := hu
  exact ⟨⟨0, [], ringInv_new (Nat.two_pow_pos k) buf⟩, hshort, List.Subset.refl _, .inl rfl, rfl⟩

end MonoBus
