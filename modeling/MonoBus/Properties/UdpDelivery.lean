import MonoBus.Construction.UdpReceiver

/-!
# From the socket to the beat

Datagrams of at most the size that is requested come to the packets handler as they have arrived at
the socket, in any order of steps of the network, of the thread that receives them and of the thread
that handles them (`udp_delivery`).  A full ring only delays them: whatever has happened, the two
threads can go on until everything that has arrived is handled (`udp_progress`).
-/

namespace MonoBus

/-! ## Nothing is lost -/

/-- The datagrams that have arrived, but for those without bytes, are in the ring, in flight or in
the queue, in this order.  What the consumer has handled is the first part of them, and all of it
when the ring is empty and nothing waits.  The bytes it handles are those of the next one. -/
structure UdpDelivers (u : UdpReceiver) : Prop where
  account : payloads u.arrived =
    u.ring.advanced.map Prod.snd ++ (u.pc.inflight ++ payloads u.queue)
  seen : u.ring.handled <+: payloads u.arrived
  drained : u.ring.head = u.ring.tail → u.pc.inflight = [] → payloads u.queue = [] →
    u.ring.handled = payloads u.arrived
  current : ∀ ptr toread got, u.ring.consumer = .handle ptr toread got →
    ∃ bytes, (payloads u.arrived)[u.ring.handled.length]? = some bytes ∧
      toread = bytes.length ∧ HoldsAt u.ring.buf ptr bytes

lemma UdpInv.delivers {size : ℕ} {u : UdpReceiver} (h : UdpInv size u) : UdpDelivers u := by
  obtain ⟨lo, ps, hring⟩ := h.ring
  have haccount := h.account
  refine ⟨haccount, ?_, ?_, ?_⟩
  · rw [haccount, hring.handled]
    exact ((List.take_prefix _ _).map Prod.snd).trans (List.prefix_append _ _)
  · intro hempty hflight hqueue
    rw [haccount, hflight, hqueue, hring.drained hempty]
    exact (List.append_nil _).symm
  · intro ptr toread got hpc
    obtain ⟨bytes, hnext, hlen, hholds⟩ := hring.current hpc
    refine ⟨bytes, ?_, hlen, hholds⟩
    rw [haccount]
    have hmap : (u.ring.advanced.map Prod.snd)[u.ring.handled.length]? = some bytes := by
      rw [List.getElem?_map, hnext]
      rfl
    rw [List.getElem?_append_left (List.getElem?_eq_some_iff.mp hmap).1]
    exact hmap

/-! ## The consumer empties the ring -/

/-- A bound for the steps to the end of a chunk. -/
def ConsumerPc.work : ConsumerPc → ℕ
  | .idle => 2 ^ 32
  | .loadHead _ => 2 ^ 32 - 1
  | .readGap _ got => 2 ^ 32 - 2 - got.length
  | .skipGap _ => 2 ^ 32 - 8
  | .readSize _ got => 2 ^ 32 - 9 - got.length
  | .handle _ toread got => 10 + (toread - got.length)
  | .loadTail => 9
  | .readAgain _ got => 8 - got.length
  | .storeTail _ _ => 3

/-- A bound for the steps until the ring is empty. -/
def Varchunk.work (s : Varchunk) : ℕ := s.unread.length * 2 ^ 33 + s.consumer.work

section Drain

variable {size k lo : ℕ} {s : Varchunk} {ps : List Piece}

/-- The number that is read of a header has four bytes. -/
lemma length_of_prefix_le32 {got : List UInt8} {v : ℕ} (h : got <+: le32 v) : got.length ≤ 4 := by
  have hle := h.length_le
  rwa [length_le32] at hle

lemma RingInv.toread_lt (h : RingInv size s lo ps) {ptr toread : ℕ} {got : List UInt8}
    (hpc : s.consumer = .handle ptr toread got) : toread < 2 ^ 31 := by
  have hcons := h.consumer
  rw [hpc] at hcons
  obtain ⟨-, p, hp, -, rfl, -⟩ := hcons
  exact (h.laid_head hp).1.short

lemma RingInv.readStart_work (h : RingInv size s lo ps) (hsize : size = 2 ^ k)
    (hne : s.unread ≠ []) : (readStart size (lo % size) s.head).work < 2 ^ 32 - 1 := by
  have hroom := h.room
  have hps : ps ≠ [] := by
    rintro rfl
    exact hne h.unread
  obtain ⟨p, rest, rfl⟩ := List.exists_cons_of_ne_nil hps
  have hpos : 0 < extents (p :: rest) := by
    rw [extents_cons, Piece.extent]
    omega
  rw [readStart, h.head, readableSpace_eq hsize (Nat.le_add_right _ _) (by omega),
    Nat.add_sub_cancel_left, if_pos hpos]
  split_ifs <;> simp [ConsumerPc.work]

/-- Every step brings the consumer closer to the end. -/
lemma RingInv.work_lt (h : RingInv size s lo ps) (hsize : size = 2 ^ k) (hne : s.unread ≠ []) :
    (MonoBus.consumerStep size s).work < s.work := by
  have hcons := h.consumer
  have hpos : 0 < s.unread.length := List.length_pos_of_ne_nil hne
  obtain ⟨lo', ps', h'⟩ := h.consumerStep hsize
  have htoread : ∀ ptr toread got,
      (MonoBus.consumerStep size s).consumer = .handle ptr toread got → toread < 2 ^ 31 :=
    fun _ _ _ hpc => h'.toread_lt hpc
  unfold Varchunk.work
  cases hpc : s.consumer with
  | idle =>
      simp only [MonoBus.consumerStep, hpc, Varchunk.unread, ConsumerPc.work]
      omega
  | loadHead tail =>
      rw [hpc] at hcons
      have hstart := h.readStart_work hsize hne
      rw [← show tail = lo % size from hcons] at hstart
      have hload : (ConsumerPc.loadHead tail).work = 2 ^ 32 - 1 := rfl
      simp only [MonoBus.consumerStep, hpc, Varchunk.unread]
      rw [hload]
      omega
  | readGap tail got =>
      rw [hpc] at hcons
      obtain ⟨-, p, -, hgot⟩ := hcons
      have hle := length_of_prefix_le32 hgot
      simp only [MonoBus.consumerStep, hpc, Varchunk.unread]
      split_ifs <;> simp only [ConsumerPc.work, List.length_append, List.length_singleton,
        List.length_nil] <;> omega
  | skipGap tail =>
      simp only [MonoBus.consumerStep, hpc, Varchunk.unread, ConsumerPc.work, List.length_nil]
      omega
  | readSize elmnt got =>
      rw [hpc] at hcons
      obtain ⟨-, p, -, -, hgot⟩ := hcons
      have hle := length_of_prefix_le32 hgot
      simp only [MonoBus.consumerStep, hpc, Varchunk.unread] at htoread ⊢
      split_ifs at htoread ⊢
      · simp only [ConsumerPc.work, List.length_append, List.length_singleton]
        omega
      · have hlt := htoread _ _ _ rfl
        simp only [ConsumerPc.work, List.length_nil]
        omega
  | handle ptr toread got =>
      simp only [MonoBus.consumerStep, hpc, Varchunk.unread]
      split_ifs <;> simp only [ConsumerPc.work, List.length_append, List.length_singleton] <;>
        omega
  | loadTail =>
      simp only [MonoBus.consumerStep, hpc, Varchunk.unread, ConsumerPc.work, List.length_nil]
      omega
  | readAgain tail got =>
      rw [hpc] at hcons
      obtain ⟨-, p, -, -, hgot⟩ := hcons
      have hle := length_of_prefix_le32 hgot
      simp only [MonoBus.consumerStep, hpc, Varchunk.unread]
      split_ifs <;> simp only [ConsumerPc.work, List.length_append, List.length_singleton] <;>
        omega
  | storeTail tail read =>
      simp only [Varchunk.unread, List.length_drop] at hpos
      simp only [MonoBus.consumerStep, hpc, Varchunk.unread, ConsumerPc.work, List.length_drop]
      omega

lemma RingInv.pieces_of_empty (h : RingInv size s lo ps) (hempty : s.unread = []) : ps = [] := by
  cases ps with
  | nil => rfl
  | cons p rest => exact absurd (h.unread.symm.trans hempty) (List.cons_ne_nil _ _)

/-- A consumer that has nothing to read is at the start, or its next step leads there. -/
lemma RingInv.consumer_of_empty (h : RingInv size s lo ps) (hsize : size = 2 ^ k)
    (hempty : s.unread = []) :
    s.consumer = .idle ∨ (MonoBus.consumerStep size s).unread = [] ∧
      (MonoBus.consumerStep size s).consumer = .idle := by
  obtain rfl := h.pieces_of_empty hempty
  have hcons := h.consumer
  have hroom := h.room
  cases hpc : s.consumer with
  | idle => exact .inl rfl
  | loadHead tail =>
      rw [hpc] at hcons
      have hspace : readableSpace size s.head tail = 0 := by
        rw [h.head, show tail = lo % size from hcons,
          readableSpace_eq hsize (Nat.le_add_right _ _) (by omega), Nat.add_sub_cancel_left]
        rfl
      refine .inr ⟨?_, ?_⟩
      · simpa [MonoBus.consumerStep, hpc, Varchunk.unread] using hempty
      · simp [MonoBus.consumerStep, hpc, readStart, hspace]
  | _ => rw [hpc] at hcons; simp [ConsumerOk] at hcons

/-- **Draining.**  Alone, the consumer reads all of the ring. -/
theorem RingInv.exists_drained (h : RingInv size s lo ps) (hsize : size = 2 ^ k) :
    ∃ n, ((MonoBus.consumerStep size)^[n] s).unread = [] ∧
      ((MonoBus.consumerStep size)^[n] s).consumer = .idle := by
  induction hwork : s.work using Nat.strong_induction_on generalizing s lo ps with
  | _ work ih =>
    by_cases hempty : s.unread = []
    · obtain hidle | hnext := h.consumer_of_empty hsize hempty
      · exact ⟨0, hempty, hidle⟩
      · exact ⟨1, hnext⟩
    · obtain ⟨lo', ps', h'⟩ := h.consumerStep hsize
      obtain ⟨n, hn⟩ := ih _ (hwork ▸ h.work_lt hsize hempty) h' rfl
      exact ⟨n + 1, hn⟩

end Drain

/-! ## Space in an empty ring -/

/-- An empty ring grants a request wherever it is, if it could hold the request twice. -/
lemma exists_request_of_empty {size k head minimum : ℕ} (hsize : size = 2 ^ k)
    (hhead : head < size) (hroom : 2 * (16 + varchunkPad minimum) ≤ size) :
    ∃ r, varchunkWriteRequestMax size head head minimum = some r := by
  have hspace : writableSpace size head head = size - 1 := by
    rw [writableSpace_eq hsize hhead, ringDistance, if_neg (lt_irrefl _), Nat.add_sub_cancel_left]
  rw [varchunkWriteRequestMax, hspace, and_mask hsize]
  dsimp only
  split_ifs with hwrap hfirst hsecond hless
  · -- the part behind the end of the buffer is large if the part in front of it is not
    have hmod : (head + (size - 1)) % size = head - 1 := by
      rw [Nat.mod_eq_sub_mod (by omega), Nat.mod_eq_of_lt (by omega)]
      omega
    rw [hmod] at hsecond
    omega
  · exact ⟨_, rfl⟩
  · exact ⟨_, rfl⟩
  · omega
  · exact ⟨_, rfl⟩

/-! ## The thread goes on -/

/-- What the threads can do without the network. -/
structure Goes (size : ℕ) (u u' : UdpReceiver) : Prop where
  steps : Relation.ReflTransGen (UdpStep size) u u'
  arrived : u'.arrived = u.arrived

namespace Goes

variable {size k : ℕ} {u v w : UdpReceiver}

lemma refl (u : UdpReceiver) : Goes size u u := ⟨.refl, rfl⟩

lemma trans (h : Goes size u v) (h' : Goes size v w) : Goes size u w :=
  ⟨h.steps.trans h'.steps, h'.arrived.trans h.arrived⟩

lemma head (h : UdpStep size u v) (harrived : v.arrived = u.arrived) (h' : Goes size v w) :
    Goes size u w :=
  ⟨h'.steps.head h, h'.arrived.trans harrived⟩

lemma inv (h : Goes size u v) (hu : UdpInv size u) (hsize : size = 2 ^ k) (hk : size ≤ 2 ^ 31) :
    UdpInv size v := by
  obtain ⟨hsteps, harrived⟩ := h
  have hshort : ShortDatagrams v := fun d hd => hu.short d (harrived ▸ hd)
  clear harrived
  induction hsteps with
  | refl => exact hu
  | tail _ hst ih => exact (ih (hshort.of_step hst)).step hsize hk hst hshort

lemma consume (u : UdpReceiver) (n : ℕ) :
    Goes size u { u with ring := (consumerStep size)^[n] u.ring } := by
  induction n generalizing u with
  | zero => exact refl u
  | succ n ih => exact (ih { u with ring := consumerStep size u.ring }).head (.consume u) rfl

end Goes

section Thread

variable {size k : ℕ} {u : UdpReceiver}

lemma exists_goes_header {datagram : List UInt8} {r : Reservation} {written head : ℕ} :
    ∀ {stores : List (ℕ × UInt8)} {u : UdpReceiver}, u.pc = .writeAdv datagram →
      u.ring.producer = .header r written head stores →
      ∃ u', Goes size u u' ∧ u'.pc = .writeReq ∧ u'.queue = u.queue := by
  intro stores
  induction stores with
  | nil =>
      intro u hpc hproducer
      have hst : ProducerStep size withinMinimum u.ring none _ := .storeHead u.ring hproducer
      refine ⟨_, (Goes.refl _).head (.inRing u (UdpPc.inRing_writeAdv hpc) hst) rfl, ?_, rfl⟩
      rfl
  | cons store stores ih =>
      intro u hpc hproducer
      obtain ⟨x, b⟩ := store
      have hst : ProducerStep size withinMinimum u.ring (some x) _ := .storeHeader u.ring hproducer
      have hpc' : u.pc.afterRing (.header r written head stores) = .writeAdv datagram := by
        rw [hpc]
        rfl
      obtain ⟨u', hgoes, hpc', hqueue⟩ := @ih { u with
        ring := { u.ring with
          buf := Function.update u.ring.buf x b
          producer := .header r written head stores }
        pc := u.pc.afterRing (.header r written head stores) } hpc' rfl
      exact ⟨u', hgoes.head (.inRing u (UdpPc.inRing_writeAdv hpc) hst) rfl, hpc', hqueue⟩

lemma exists_goes_writeAdv (h : UdpInv size u) {datagram : List UInt8}
    (hpc : u.pc = .writeAdv datagram) :
    ∃ u', Goes size u u' ∧ u'.pc = .writeReq ∧ u'.queue = u.queue := by
  have hthread := h.thread
  rw [hpc] at hthread
  obtain ⟨-, r, hproducer | ⟨head, stores, hproducer⟩, -⟩ := hthread
  · have hst : ProducerStep size withinMinimum u.ring none _ := .loadOwnHead u.ring hproducer
    set producer : ProducerPc := .header r datagram.length u.ring.head
      (headerStores u.ring.head r.gapd datagram.length) with hheader
    have hpc' : u.pc.afterRing producer = .writeAdv datagram := by
      rw [hpc]
      rfl
    obtain ⟨u', hgoes, hpc', hqueue⟩ := @exists_goes_header size datagram _ _ _ _ { u with
      ring := { u.ring with producer := producer }
      pc := u.pc.afterRing producer } hpc' rfl
    exact ⟨u', hgoes.head (.inRing u (UdpPc.inRing_writeAdv hpc) hst) rfl, hpc', hqueue⟩
  · exact exists_goes_header hpc hproducer

lemma exists_goes_copying (hsize : size = 2 ^ k) (hk : size ≤ 2 ^ 31) {datagram : List UInt8} :
    ∀ {n got : ℕ} {u : UdpReceiver}, UdpInv size u → u.pc = .copying datagram got →
      got + n = datagram.length →
      ∃ u', Goes size u u' ∧ u'.pc = .writeReq ∧ u'.queue = u.queue := by
  intro n
  induction n with
  | zero =>
      intro got u h hpc hn
      have hthread := h.thread
      rw [hpc] at hthread
      obtain ⟨-, -, -, r, hproducer, -⟩ := hthread
      obtain rfl : got = datagram.length := hn
      have hst : UdpStep size u _ := .recvd u hpc hproducer
      obtain ⟨u', hgoes, hpc', hqueue⟩ := exists_goes_writeAdv (h.step hsize hk hst h.short) rfl
      exact ⟨u', hgoes.head hst rfl, hpc', hqueue⟩
  | succ n ih =>
      intro got u h hpc hn
      have hthread := h.thread
      rw [hpc] at hthread
      obtain ⟨-, -, -, r, hproducer, -⟩ := hthread
      have hlt : got < datagram.length := by omega
      have hst : UdpStep size u _ := .copy u hlt hpc hproducer
      obtain ⟨u', hgoes, hpc', hqueue⟩ := ih (h.step hsize hk hst h.short) rfl (by omega)
      exact ⟨u', hgoes.head hst rfl, hpc', hqueue⟩

lemma exists_goes_recvfrom (h : UdpInv size u) (hsize : size = 2 ^ k) (hk : size ≤ 2 ^ 31)
    (hpc : u.pc = .recvfrom) :
    ∃ u', Goes size u u' ∧ u'.pc = .writeReq ∧ u'.queue = u.queue.tail := by
  have hthread := h.thread
  rw [hpc] at hthread
  obtain ⟨r, hproducer⟩ := hthread
  cases hqueue : u.queue with
  | nil => exact ⟨_, (Goes.refl _).head (.empty u hpc hqueue) rfl, rfl, hqueue⟩
  | cons datagram queue =>
      by_cases hne : datagram = []
      · subst hne
        exact ⟨_, (Goes.refl _).head (.zero u hpc hqueue) rfl, rfl, rfl⟩
      · have hst : UdpStep size u _ := .recv u hpc hqueue hne hproducer
        obtain ⟨u', hgoes, hpc', hqueue'⟩ :=
          exists_goes_copying hsize hk (h.step hsize hk hst h.short) rfl (Nat.zero_add _)
        exact ⟨u', hgoes.head hst rfl, hpc', hqueue'⟩

lemma exists_goes_loadTail (h : UdpInv size u) (hsize : size = 2 ^ k) (hk : size ≤ 2 ^ 31)
    {head : ℕ} (hpc : u.pc = .requesting)
    (hproducer : u.ring.producer = .loadTail streamReqbuf head) :
    ∃ u', Goes size u u' ∧ u'.pc = .writeReq ∧ u'.queue.length ≤ u.queue.length ∧
      ((∃ r, varchunkWriteRequestMax size head u.ring.tail streamReqbuf = some r) →
        u'.queue = u.queue.tail) := by
  have hst : UdpStep size u _ :=
    .inRing u (UdpPc.inRing_requesting hpc) (.loadTail u.ring hproducer)
  have hinv := h.step hsize hk hst h.short
  cases hreq : varchunkWriteRequestMax size head u.ring.tail streamReqbuf with
  | none =>
      refine ⟨_, (Goes.refl _).head hst rfl, ?_, le_rfl, fun ⟨r, hr⟩ => by cases hr⟩
      rw [hreq]
      rfl
  | some r =>
      rw [hreq] at hst hinv
      obtain ⟨u', hgoes, hpc', hqueue⟩ := exists_goes_recvfrom hinv hsize hk rfl
      refine ⟨u', hgoes.head hst rfl, hpc', ?_, fun _ => hqueue⟩
      rw [hqueue]
      exact (List.length_tail.trans_le (Nat.sub_le _ _))

lemma exists_goes_requesting (h : UdpInv size u) (hsize : size = 2 ^ k) (hk : size ≤ 2 ^ 31)
    (hpc : u.pc = .requesting) :
    ∃ u', Goes size u u' ∧ u'.pc = .writeReq ∧ u'.queue.length ≤ u.queue.length ∧
      (u.ring.producer = .loadHead streamReqbuf →
        (∃ r, varchunkWriteRequestMax size u.ring.head u.ring.tail streamReqbuf = some r) →
        u'.queue = u.queue.tail) := by
  have hthread := h.thread
  rw [hpc] at hthread
  obtain hproducer | ⟨head, hproducer⟩ := hthread
  · have hst : UdpStep size u _ :=
      .inRing u (UdpPc.inRing_requesting hpc) (.loadHead u.ring hproducer)
    obtain ⟨u', hgoes, hpc', hle, hgrant⟩ :=
      exists_goes_loadTail (h.step hsize hk hst h.short) hsize hk (by rw [hpc]; rfl) rfl
    exact ⟨u', hgoes.head hst rfl, hpc', hle, fun _ => hgrant⟩
  · obtain ⟨u', hgoes, hpc', hle, -⟩ := exists_goes_loadTail h hsize hk hpc hproducer
    refine ⟨u', hgoes, hpc', hle, fun hload => ?_⟩
    rw [hproducer] at hload
    cases hload

/-- Wherever the thread is, it gets back to `write_req`. -/
lemma exists_goes_writeReq (h : UdpInv size u) (hsize : size = 2 ^ k) (hk : size ≤ 2 ^ 31) :
    ∃ u', Goes size u u' ∧ u'.pc = .writeReq ∧ u'.queue.length ≤ u.queue.length := by
  cases hpc : u.pc with
  | writeReq => exact ⟨u, .refl u, hpc, le_rfl⟩
  | requesting =>
      obtain ⟨u', hgoes, hpc', hle, -⟩ := exists_goes_requesting h hsize hk hpc
      exact ⟨u', hgoes, hpc', hle⟩
  | recvfrom =>
      obtain ⟨u', hgoes, hpc', hqueue⟩ := exists_goes_recvfrom h hsize hk hpc
      refine ⟨u', hgoes, hpc', ?_⟩
      rw [hqueue]
      exact (List.length_tail.trans_le (Nat.sub_le _ _))
  | copying datagram got =>
      have hthread := h.thread
      rw [hpc] at hthread
      obtain ⟨-, -, hgot, -⟩ := hthread
      obtain ⟨u', hgoes, hpc', hqueue⟩ :=
        exists_goes_copying hsize hk h hpc (Nat.add_sub_cancel' hgot)
      exact ⟨u', hgoes, hpc', (congrArg List.length hqueue).le⟩
  | writeAdv datagram =>
      obtain ⟨u', hgoes, hpc', hqueue⟩ := exists_goes_writeAdv h hpc
      exact ⟨u', hgoes, hpc', (congrArg List.length hqueue).le⟩

lemma exists_goes_next (h : UdpInv size u) (hsize : size = 2 ^ k) (hk : size ≤ 2 ^ 31)
    (hroom : 2 * (16 + varchunkPad streamReqbuf) ≤ size) (hpc : u.pc = .writeReq)
    (hempty : u.ring.unread = []) :
    ∃ u', Goes size u u' ∧ u'.pc = .writeReq ∧ u'.queue = u.queue.tail := by
  obtain ⟨lo, ps, hring⟩ := h.ring
  obtain rfl := hring.pieces_of_empty hempty
  have hhead : u.ring.head = u.ring.tail := hring.head.trans hring.tail.symm
  have hlt : u.ring.tail < size := by
    rw [hring.tail]
    exact Nat.mod_lt _ (by omega)
  have hst : UdpStep size u _ := .request u hpc
  obtain ⟨u', hgoes, hpc', -, hgrant⟩ :=
    exists_goes_requesting (h.step hsize hk hst h.short) hsize hk rfl
  refine ⟨u', hgoes.head hst rfl, hpc', hgrant rfl ?_⟩
  show ∃ r, varchunkWriteRequestMax size u.ring.head u.ring.tail streamReqbuf = some r
  rw [hhead]
  exact exists_request_of_empty hsize hlt hroom

lemma exists_goes_drained (h : UdpInv size u) (hsize : size = 2 ^ k) :
    ∃ u', Goes size u u' ∧ u'.pc = u.pc ∧ u'.queue = u.queue ∧ u'.ring.unread = [] := by
  obtain ⟨lo, ps, hring⟩ := h.ring
  obtain ⟨n, hempty, -⟩ := hring.exists_drained hsize
  exact ⟨_, .consume u n, rfl, rfl, hempty⟩

/-- The queue is taken datagram by datagram. -/
lemma exists_goes_all (hsize : size = 2 ^ k) (hk : size ≤ 2 ^ 31)
    (hroom : 2 * (16 + varchunkPad streamReqbuf) ≤ size) :
    ∀ {n : ℕ} {u : UdpReceiver}, UdpInv size u → u.queue.length ≤ n →
      ∃ u', Goes size u u' ∧ u'.pc = .writeReq ∧ u'.queue = [] ∧ u'.ring.unread = [] := by
  intro n
  induction n with
  | zero =>
      intro u h hn
      obtain ⟨v, hv, hpc, hqueue⟩ := exists_goes_writeReq h hsize hk
      obtain ⟨w, hw, hpc', hqueue', hempty⟩ := exists_goes_drained (hv.inv h hsize hk) hsize
      refine ⟨w, hv.trans hw, hpc'.trans hpc, ?_, hempty⟩
      rw [hqueue']
      exact List.length_eq_zero_iff.mp (by omega)
  | succ n ih =>
      intro u h hn
      obtain ⟨v, hv, hpc, hqueue⟩ := exists_goes_writeReq h hsize hk
      have hvinv := hv.inv h hsize hk
      obtain ⟨w, hw, hpc', hqueue', hempty⟩ := exists_goes_drained hvinv hsize
      have hwinv := hw.inv hvinv hsize hk
      obtain ⟨x, hx, -, htail⟩ := exists_goes_next hwinv hsize hk hroom (hpc'.trans hpc) hempty
      obtain ⟨u', hgoes, hrest⟩ := ih (hx.inv hwinv hsize hk)
        (by rw [htail, hqueue', List.length_tail]; omega)
      exact ⟨u', hv.trans (hw.trans (hx.trans hgoes)), hrest⟩

end Thread

/-! ## The two results -/

/-- **Delivery.**  In every state that any interleaving comes to, if no datagram that has arrived is
longer than the size that is requested, every one of them is in its place between the socket and the
handler, once, in order and with its bytes. -/
theorem udp_delivery {k : ℕ} (hk : k ≤ 31) {u : UdpReceiver}
    (h : (udpSystem (2 ^ k)).Reachable u) (hshort : ∀ d ∈ u.arrived, d.length ≤ streamReqbuf) :
    UdpDelivers u :=
  (udpInv_of_reachable hk h hshort).delivers

/-- **Progress.**  From every such state, in a ring that could hold two requests, the two threads
can go on, without another datagram, to a state in which all datagrams that have arrived are
handled. -/
theorem udp_progress {k : ℕ} (hk : k ≤ 31)
    (hroom : 2 * (16 + varchunkPad streamReqbuf) ≤ 2 ^ k) {u : UdpReceiver}
    (h : (udpSystem (2 ^ k)).Reachable u) (hshort : ∀ d ∈ u.arrived, d.length ≤ streamReqbuf) :
    ∃ u', Relation.ReflTransGen (UdpStep (2 ^ k)) u u' ∧ u'.arrived = u.arrived ∧
      u'.ring.handled = payloads u.arrived := by
  have hle : 2 ^ k ≤ 2 ^ 31 := Nat.pow_le_pow_right (by norm_num) hk
  have hinv := udpInv_of_reachable hk h hshort
  obtain ⟨u', hgoes, hpc, hqueue, hempty⟩ := exists_goes_all rfl hle hroom hinv le_rfl
  have hinv' := hgoes.inv hinv rfl hle
  obtain ⟨lo, ps, hring⟩ := hinv'.ring
  obtain rfl := hring.pieces_of_empty hempty
  refine ⟨u', hgoes.steps, hgoes.arrived, ?_⟩
  rw [← hgoes.arrived]
  exact hinv'.delivers.drained (hring.head.trans hring.tail.symm) (by rw [hpc]; rfl)
    (by rw [hqueue]; rfl)

/-! ## One datagram -/

def oneArrived : UdpReceiver := ⟨.new fun _ => 0, [[0x2f]], .writeReq, [[0x2f]]⟩

lemma reachable_oneArrived (size : ℕ) : (udpSystem size).Reachable oneArrived := by
  have hnew : (udpSystem size).Reachable ⟨.new fun _ => 0, [], .writeReq, []⟩ := .init ⟨_, rfl⟩
  exact hnew.step (.arrive _ [0x2f])

/-- A datagram of one byte is on its way. -/
theorem udp_delivery_oneArrived : UdpDelivers oneArrived :=
  udp_delivery (k := 13) (by norm_num) (reachable_oneArrived (2 ^ 13)) (by decide)

/-- In the ring of the daemon it can be handled. -/
theorem udp_progress_oneArrived :
    ∃ u', Relation.ReflTransGen (UdpStep (2 ^ 13)) oneArrived u' ∧
      u'.ring.handled = [[0x2f]] := by
  obtain ⟨u', hsteps, -, hhandled⟩ :=
    @udp_progress 13 (by norm_num) (by decide) oneArrived (reachable_oneArrived (2 ^ 13))
      (by decide)
  exact ⟨u', hsteps, hhandled⟩

end MonoBus
