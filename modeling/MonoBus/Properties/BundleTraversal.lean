import MonoBus.Construction.PacketTree

/-!
# Nested bundles

Handling a packet tree is handling its messages one by one, from left to right
(`handleOscPacket_eq_visits`): the walk stops, it misses no message and repeats none, and each
message is handled or scheduled by the timetag of the bundle it stands in.  As long as memory
lasts, the list grows by exactly the messages that are not immediate
(`list_of_foldlM_visits`).
-/

namespace MonoBus

section Traversal

variable {σ : Type} (draw : σ → Call → Run σ) (libc : Libc)

namespace OscPacket

mutual

/-- The recursion of packets and bundles visits the messages of a packet. -/
theorem handleOscPacket_eq_visits (mem : Memory) :
    ∀ p : OscPacket, p.WellSized → ∃ fuel₀, ∀ fuel ≥ fuel₀, ∀ (app : App σ) timetag a,
      mem.At a p.encode →
        handleOscPacket draw libc fuel app timetag mem a p.encode.length =
          (p.visits timetag a).foldlM (Visit.run draw libc mem) app
  | .message rest, _ => by
      refine ⟨1, fun fuel hfuel app timetag a h => ?_⟩
      obtain ⟨fuel, rfl⟩ := Nat.exists_eq_add_of_le' hfuel
      rw [encode] at h ⊢
      rw [handleOscPacket_message fuel app timetag _ h]
      simp [visits, Visit.run]
  | .bundle timetag' items, hsize => by
      obtain ⟨fuel₀, hitems⟩ := bundleForeach_eq_visits mem items hsize
      refine ⟨fuel₀ + 2, fun fuel hfuel app timetag a h => ?_⟩
      obtain ⟨fuel, rfl⟩ := Nat.exists_eq_add_of_le' (le_of_add_le_right hfuel)
      have hrest := OscReader.rest_initializeAt h
      set reader := OscReader.initializeAt mem a (bundle timetag' items).encode.length with hreader
      have hbundle : reader.isBundle = .ok true := h.left.strncmpEq
      obtain ⟨hbody, hptr⟩ := OscReader.rest_items hrest
      have hrun := hitems fuel (by omega) app (reader.advance 16)
        { size := 0, body := 0, timetag := timetag', end_ := reader.end_ } hbody rfl rfl
      rw [handleOscPacket, ← hreader, hbundle]
      simp only [Run.ok_bind, if_true, handleOscBundle, OscReader.itemBegin_bundle hrest]
      rw [hrun, hptr, visits]
      rfl

/-- The loop over the items of a bundle visits their messages. -/
theorem bundleForeach_eq_visits (mem : Memory) :
    ∀ ps : List OscPacket, WellSizedItems ps → ∃ fuel₀, ∀ fuel ≥ fuel₀, ∀ (app : App σ)
      (r : OscReader) (itm : OscItem), r.Rest (encodeItems ps) → r.mem = mem →
      itm.end_ = r.end_ →
        (do
          let itm ← r.itemRaw itm
          bundleForeach draw libc fuel app itm) =
          (visitsItems itm.timetag r.ptr ps).foldlM (Visit.run draw libc mem) app
  | [], _ => by
      refine ⟨1, fun fuel hfuel app r itm h _ _ => ?_⟩
      obtain ⟨fuel, rfl⟩ := Nat.exists_eq_add_of_le' hfuel
      rw [OscReader.itemRaw_nil itm h, Run.ok_bind, bundleForeach, visitsItems]
      rfl
  | p :: ps, hsize => by
      obtain ⟨hlt, hp, hps⟩ := hsize
      obtain ⟨fuel₁, hitem⟩ := handleOscPacket_eq_visits mem p hp
      obtain ⟨fuel₂, hitems⟩ := bundleForeach_eq_visits mem ps hps
      refine ⟨max fuel₁ fuel₂ + 1, fun fuel hfuel app r itm h hmem hend => ?_⟩
      obtain ⟨fuel, rfl⟩ := Nat.exists_eq_add_of_le' (le_of_add_le_right hfuel)
      have hraw := OscReader.itemRaw_cons itm hlt h
      rw [encodeItems] at h
      have hbody := h.advance
      have hptr := h.advance_ptr
      rw [length_be32] at hbody hptr
      have hnext := hbody.advance
      have hstop : (r.advance 4).itemIsEnd
          { itm with size := Int32.ofNat p.encode.length, body := r.ptr + 4 } = false := by
        have hle := hbody.end_eq
        simp only [OscReader.itemIsEnd, hend, decide_eq_false_iff_not]
        rw [OscReader.advance_end] at hle
        omega
      rw [hraw, Run.ok_bind, bundleForeach, hstop]
      simp only [Bool.false_eq_true, if_false, OscReader.itemNext, sizeOfInt32_ofNat hlt,
        OscReader.advance_mem]
      rw [hmem, hitem fuel (by omega) app itm.timetag (r.ptr + 4) (by
        have hat := hbody.at_.left
        rwa [hptr, OscReader.advance_mem, hmem] at hat)]
      rw [visitsItems, List.foldlM_append]
      refine bind_congr fun app' => ?_
      have hrun := hitems fuel (by omega) app' _
        { itm with size := Int32.ofNat p.encode.length, body := r.ptr + 4 } hnext hmem hend
      rw [hrun, hbody.advance_ptr, hptr, Nat.add_assoc]

end

end OscPacket

variable {draw libc} {mem : Memory} {app app' : App σ}

def Sched.content (elmnt : Sched) : UInt64 × List UInt8 := (elmnt.timetag, elmnt.buf.bytes)

def Visit.content (v : Visit) : UInt64 × List UInt8 := (v.timetag, v.bytes)

/-- The messages that are not immediate. -/
def scheduled (messages : List (UInt64 × List UInt8)) : List (UInt64 × List UInt8) :=
  messages.filter fun message => message.1 ≠ oscImmediate

lemma scheduled_cons (message : UInt64 × List UInt8) (messages : List (UInt64 × List UInt8)) :
    scheduled (message :: messages) = scheduled [message] ++ scheduled messages := by
  rw [scheduled, scheduled, scheduled, ← List.filter_append, List.singleton_append]

/-- A message that is not immediate is appended to the list, and an immediate one leaves it. -/
lemma list_of_run {v : Visit} (hat : mem.At v.addr v.bytes)
    (hgrants : libc.malloc.Grants (sizeofSched + mem.bytes.length))
    (h : v.run draw libc mem app = .ok app') :
    app'.list.map Sched.content =
      app.list.map Sched.content ++ scheduled [v.content] := by
  unfold Visit.run at h
  split_ifs at h with himmediate
  · obtain ⟨state, -, h⟩ := Run.bind_eq_ok.mp h
    rw [← Except.ok.inj h]
    simp [scheduled, Visit.content, himmediate]
  · have hlen : v.bytes.length ≤ mem.bytes.length := by
      have hend := hat.end_le
      have hbase := hat.base_le
      unfold Memory.limit at hend
      omega
    have hsome := hgrants app.allocs (sizeofSched + v.bytes.length) (by omega)
    obtain ⟨hnone, -⟩ | ⟨elmnt, htimetag, hbytes, -, hschedule⟩ :=
      @schedule_eq _ libc _ _ _ app v.timetag hat
    · simp [hnone] at hsome
    · rw [hschedule] at h
      rw [← Except.ok.inj h]
      simp [scheduled, Sched.content, Visit.content, himmediate, htimetag, hbytes]

lemma list_of_foldlM_visits (hgrants : libc.malloc.Grants (sizeofSched + mem.bytes.length)) :
    ∀ {vs : List Visit} {app : App σ}, (∀ v ∈ vs, mem.At v.addr v.bytes) →
      vs.foldlM (Visit.run draw libc mem) app = .ok app' →
      app'.list.map Sched.content =
        app.list.map Sched.content ++ scheduled (vs.map Visit.content) := by
  intro vs
  induction vs with
  | nil =>
      intro app _ h
      rw [← Except.ok.inj h]
      simp [scheduled]
  | cons v vs ih =>
      intro app hat h
      rw [List.foldlM_cons] at h
      obtain ⟨mid, hmid, h⟩ := Run.bind_eq_ok.mp h
      rw [ih (fun w hw => hat w (List.mem_cons_of_mem v hw)) h,
        list_of_run (hat v List.mem_cons_self) hgrants hmid]
      rw [List.map_cons, scheduled_cons v.content (vs.map Visit.content), List.append_assoc]

lemma visits_of_handle {tree : OscPacket} (hsize : tree.WellSized) (pkt : Packet tree.encode)
    {fuel : ℕ} {timetag : UInt64} (h : pkt.handle draw libc fuel app timetag = .ok app') :
    (tree.visits timetag pkt.mem.base).foldlM (Visit.run draw libc pkt.mem) app = .ok app' := by
  have hbytes : pkt.mem.At pkt.mem.base tree.encode := pkt.rest_reader.at_
  obtain ⟨fuel₀, hrun⟩ := OscPacket.handleOscPacket_eq_visits draw libc pkt.mem tree hsize
  rw [← hrun (max fuel fuel₀) (le_max_right _ _) app timetag _ hbytes]
  exact handleOscPacket_mono (le_max_left _ _) h

lemma list_of_handle {tree : OscPacket} (hsize : tree.WellSized) (pkt : Packet tree.encode)
    (hgrants : libc.malloc.Grants (sizeofSched + tree.encode.length)) {fuel : ℕ}
    {app app' : App σ} {timetag : UInt64}
    (h : pkt.handle draw libc fuel app timetag = .ok app') :
    app'.list.map Sched.content =
      app.list.map Sched.content ++ scheduled (tree.leaves timetag) := by
  have hbytes : pkt.mem.At pkt.mem.base tree.encode := pkt.rest_reader.at_
  have hcontent : (tree.visits timetag pkt.mem.base).map Visit.content = tree.leaves timetag :=
    OscPacket.map_visits timetag pkt.mem.base tree
  rw [← hcontent]
  exact list_of_foldlM_visits (by rwa [pkt.bytes_eq])
    (OscPacket.at_of_mem_visits timetag tree hbytes) (visits_of_handle hsize pkt h)

/-- **Nested bundles.**  The messages of a packet are visited from left to right, with their
exact bytes, and the walk comes to its end.  Each is handled at once or appended to the list by
the timetag of its innermost bundle; if memory lasts, the list grows by exactly the messages
that are not immediate. -/
theorem bundles_traversed (draw : σ → Call → Run σ) (libc : Libc) (tree : OscPacket)
    (hsize : tree.WellSized) (pkt : Packet tree.encode) (timetag : UInt64) :
    let visits := tree.visits timetag pkt.mem.base
    visits.map Visit.content = tree.leaves timetag ∧
      (∀ v ∈ visits, pkt.mem.At v.addr v.bytes) ∧
      ∃ fuel₀, ∀ fuel ≥ fuel₀, ∀ app,
        pkt.handle draw libc fuel app timetag = visits.foldlM (Visit.run draw libc pkt.mem) app ∧
          (libc.malloc.Grants (sizeofSched + tree.encode.length) →
            ∀ app', pkt.handle draw libc fuel app timetag = .ok app' →
              app'.list.map Sched.content =
                app.list.map Sched.content ++ scheduled (tree.leaves timetag)) := by
  intro visits
  have hbytes : pkt.mem.At pkt.mem.base tree.encode := pkt.rest_reader.at_
  have hat := OscPacket.at_of_mem_visits timetag tree hbytes
  have hcontent : visits.map Visit.content = tree.leaves timetag :=
    OscPacket.map_visits timetag pkt.mem.base tree
  obtain ⟨fuel₀, hrun⟩ := OscPacket.handleOscPacket_eq_visits draw libc pkt.mem tree hsize
  refine ⟨hcontent, hat, fuel₀, fun fuel hfuel app => ⟨hrun fuel hfuel app _ _ hbytes, ?_⟩⟩
  intro hgrants app' happ'
  exact list_of_handle hsize pkt hgrants happ'

end Traversal

/-! ## A nested packet -/

/-- A scheduled bundle in an immediate one, with a message behind it. -/
def nestedPacket : OscPacket :=
  .bundle oscImmediate [.bundle 7 [.message [0x62, 0, 0]], .message [0x61, 0, 0, 0x2c, 0, 0, 0]]

def innerElmnt : Sched := .plenty 7 [0x2f, 0x62, 0, 0] (by decide)

/-- Only the message of the inner bundle is scheduled. -/
theorem bundles_traversed_nested :
    ∃ fuel₀, ∀ fuel ≥ fuel₀, ∃ app',
      (Packet.placed nestedPacket.encode (by decide)).handle Call.exec .simple fuel
        ⟨State.zero, [], 0⟩ 1 = .ok app' ∧
      app'.list.map Sched.content = [(7, [0x2f, 0x62, 0, 0])] := by
  have hsize : nestedPacket.WellSized := by
    simp only [nestedPacket, OscPacket.WellSized, OscPacket.WellSizedItems]
    exact ⟨by decide, ⟨by decide, trivial, trivial⟩, by decide, trivial, trivial⟩
  have hgrants : Malloc.plenty.Grants (sizeofSched + nestedPacket.encode.length) :=
    Malloc.plenty_grants (by decide)
  obtain ⟨-, -, fuel₀, hrun⟩ := bundles_traversed Call.exec .simple nestedPacket hsize
    (Packet.placed nestedPacket.encode (by decide)) 1
  refine ⟨fuel₀, fun fuel hfuel => ?_⟩
  obtain ⟨hvisits, hlist⟩ := hrun fuel hfuel ⟨State.zero, [], 0⟩
  have happ' : (nestedPacket.visits 1 4096).foldlM
      (Visit.run Call.exec .simple (Packet.placed nestedPacket.encode (by decide)).mem)
      ⟨State.zero, [], 0⟩ = .ok ⟨State.zero, [innerElmnt], 1⟩ := by rfl
  refine ⟨_, hvisits.trans happ', ?_⟩
  rw [hlist hgrants _ (hvisits.trans happ')]
  decide

end MonoBus
