import MonoBus.Construction.StreamUrl

/-!
# Which URLs are accepted

The searches of `_lv2_osc_stream_reinit` accept exactly the URLs of the grammar, and what they
cut out of one is what the grammar says (`parseUrl_eq_ok_iff`).  What is refused is told by the
error (`parseUrl_spec`).
-/

namespace MonoBus

/-! ## Searching for a character -/

section Strchr

variable {c : UInt8} {s front behind : List UInt8}

lemma strchr_eq_none_iff : strchr c s = none ↔ c ∉ s := by
  induction s with
  | nil => simp [strchr]
  | cons b bs ih =>
      rw [strchr]
      by_cases hb : b = c
      · simp [hb]
      · simp [hb, ih, Ne.symm hb]

lemma eq_of_strchr (h : strchr c s = some (front, behind)) :
    s = front ++ c :: behind ∧ c ∉ front := by
  induction s generalizing front with
  | nil => cases h
  | cons b bs ih =>
      rw [strchr] at h
      split_ifs at h with hb
      · cases h
        exact ⟨by rw [hb, List.nil_append], List.not_mem_nil⟩
      · obtain ⟨⟨front', behind'⟩, hcut, heq⟩ := Option.map_eq_some_iff.mp h
        cases heq
        obtain ⟨rfl, hnot⟩ := ih hcut
        exact ⟨rfl, fun hmem => (List.mem_cons.mp hmem).elim (fun h => hb h.symm) hnot⟩

lemma strchr_append (h : c ∉ front) (behind : List UInt8) :
    strchr c (front ++ c :: behind) = some (front, behind) := by
  induction front with
  | nil => rw [List.nil_append, strchr, if_pos rfl]
  | cons b bs ih =>
      rw [List.mem_cons, not_or] at h
      rw [List.cons_append, strchr, if_neg (Ne.symm h.1), ih h.2]
      rfl

end Strchr

/-! ## The searches -/

section Bind

variable {α β : Type} {x : Except UrlError α} {f : α → Except UrlError β}

lemma bind_eq_ok_iff {b : β} : x >>= f = .ok b ↔ ∃ a, x = .ok a ∧ f a = .ok b := by
  cases x with
  | error e => exact ⟨nofun, fun ⟨_, h, _⟩ => nomatch h⟩
  | ok a => exact ⟨fun h => ⟨a, rfl, h⟩, fun ⟨_, ha, h⟩ => by cases ha; exact h⟩

lemma bind_eq_error_iff {e : UrlError} :
    x >>= f = .error e ↔ x = .error e ∨ ∃ a, x = .ok a ∧ f a = .error e := by
  cases x with
  | error e' =>
      refine ⟨fun h => .inl ?_, ?_⟩
      · cases h
        rfl
      · rintro (h | ⟨_, h, _⟩)
        · cases h
          rfl
        · cases h
  | ok a =>
      refine ⟨fun h => .inr ⟨a, rfl, h⟩, ?_⟩
      rintro (h | ⟨_, h, hf⟩)
      · cases h
      · cases h
        exact hf

end Bind

section Searches

variable {family : SocketFamily} {ptr rest : List UInt8}

lemma cutOptional_eq_ok_iff {c : UInt8} {e : UrlError} {found : Option (List UInt8)} :
    cutOptional c e family ptr = .ok (found, rest) ↔
      (found = none ∧ rest = ptr ∧ c ∉ ptr) ∨
        ∃ front, found = some front ∧ ptr = front ++ c :: rest ∧ c ∉ front ∧ family = .inet6 := by
  constructor
  · intro h
    unfold cutOptional at h
    split at h
    next hnone =>
      cases h
      exact .inl ⟨rfl, rfl, strchr_eq_none_iff.mp hnone⟩
    next front rest' hcut =>
      split_ifs at h with hfamily
      cases h
      obtain ⟨hptr, hnot⟩ := eq_of_strchr hcut
      exact .inr ⟨front, rfl, hptr, hnot, not_not.mp hfamily⟩
  · rintro (⟨rfl, rfl, hnot⟩ | ⟨front, rfl, rfl, hnot, rfl⟩)
    · rw [cutOptional, strchr_eq_none_iff.mpr hnot]
    · rw [cutOptional, strchr_append hnot]
      rfl

/-- A search fails where an IPv4 address has the character. -/
lemma cutOptional_eq_error_iff {c : UInt8} {e e' : UrlError} :
    cutOptional c e family ptr = .error e' ↔ e' = e ∧ family = .inet ∧ c ∈ ptr := by
  unfold cutOptional
  split
  next hnone => simp [strchr_eq_none_iff.mp hnone]
  next front rest hcut =>
    obtain ⟨rfl, -⟩ := eq_of_strchr hcut
    cases family <;> simp [eq_comm]

lemma cutService_eq_ok_iff {front service : List UInt8} :
    cutService ptr = .ok (front, service) ↔
      ptr = front ++ ':'.toUInt8 :: service ∧ ':'.toUInt8 ∉ front := by
  constructor
  · intro h
    unfold cutService at h
    split at h
    next => cases h
    next hcut =>
      cases h
      exact eq_of_strchr hcut
  · rintro ⟨rfl, hnot⟩
    rw [cutService, strchr_append hnot]

lemma error_of_cutService {e : UrlError} (h : cutService ptr = .error e) : e = .destAddrReq := by
  unfold cutService at h
  split at h
  next => exact (Except.error.inj h).symm
  next => cases h

lemma parseStrings_eq_ok_iff {address : StreamAddress} :
    parseStrings family ptr = .ok address ↔
      ∃ node ptr₁ last ptr₂ front service, cutNode family ptr = .ok (node, ptr₁) ∧
        cutBracket family ptr₁ = .ok (last, ptr₂) ∧ cutService ptr₂ = .ok (front, service) ∧
        address = match node with
          | none => .ofStrings family (last.getD front) none service
          | some node => .ofStrings family node (some (last.getD front)) service := by
  unfold parseStrings
  simp only [bind_eq_ok_iff, Prod.exists]
  constructor
  · rintro ⟨node, ptr₁, hnode, last, ptr₂, hlast, front, service, hservice, h⟩
    refine ⟨node, ptr₁, last, ptr₂, front, service, hnode, hlast, hservice, ?_⟩
    cases node <;> exact (Except.ok.inj h).symm
  · rintro ⟨node, ptr₁, last, ptr₂, front, service, hnode, hlast, hservice, rfl⟩
    refine ⟨node, ptr₁, hnode, last, ptr₂, hlast, front, service, hservice, ?_⟩
    cases node <;> rfl

/-- The first search finds an interface where none can be, and the others something missing. -/
lemma error_of_parseStrings {e : UrlError} (h : parseStrings family ptr = .error e) :
    (e = .proto ∧ family = .inet ∧ '%'.toUInt8 ∈ ptr) ∨
      (e = .destAddrReq ∧ ¬ (family = .inet ∧ '%'.toUInt8 ∈ ptr)) := by
  unfold parseStrings at h
  simp only [bind_eq_error_iff, Prod.exists] at h
  obtain hnode | ⟨node, ptr₁, hnode, h⟩ := h
  · exact .inl (cutOptional_eq_error_iff.mp hnode)
  have hnot : ¬ (family = .inet ∧ '%'.toUInt8 ∈ ptr) := fun hpercent => by
    have hfail : cutNode family ptr = .error .proto :=
      cutOptional_eq_error_iff.mpr ⟨rfl, hpercent⟩
    rw [hfail] at hnode
    cases hnode
  refine .inr ⟨?_, hnot⟩
  obtain hlast | ⟨last, ptr₂, hlast, hservice | ⟨front, service, hservice, h⟩⟩ := h
  · exact (cutOptional_eq_error_iff.mp hlast).1
  · exact error_of_cutService hservice
  · cases node <;> cases h

end Searches

/-! ## Addresses -/

section Addresses

variable {ptr : List UInt8} {address : StreamAddress}

/-- A character is looked for on both sides of another one. -/
lemma not_mem_append_cons {c d : UInt8} {front behind : List UInt8} (h : c ≠ d) :
    c ∉ front ++ d :: behind ↔ c ∉ front ++ behind := by
  simp [h]

/-- An IPv4 address goes one way only. -/
lemma parseStrings_inet_iff (hbracket : ptr.head? ≠ some '['.toUInt8) :
    parseStrings .inet ptr = .ok address ↔ address.Reads ptr := by
  rw [parseStrings_eq_ok_iff]
  constructor
  · rintro ⟨node, ptr₁, last, ptr₂, front, service, hnode, hlast, hservice, haddress⟩
    obtain ⟨rfl, rfl, hpercent⟩ | ⟨_, _, _, _, hfamily⟩ := cutOptional_eq_ok_iff.mp hnode
    · obtain ⟨rfl, rfl, hclose⟩ | ⟨_, _, _, _, hfamily⟩ := cutOptional_eq_ok_iff.mp hlast
      · obtain ⟨rfl, hcolon⟩ := cutService_eq_ok_iff.mp hservice
        rw [not_mem_append_cons (by decide)] at hpercent hclose
        rw [haddress]
        refine .inet (fun hhead => hbracket ?_) hcolon hpercent hclose
        rw [Option.getD_none] at hhead
        rw [List.head?_append, hhead]
        rfl
      · cases hfamily
    · cases hfamily
  · intro h
    cases h with
    | @inet node service _ hcolon hpercent hclose =>
        refine ⟨none, _, none, _, node, service, cutOptional_eq_ok_iff.mpr (.inl ⟨rfl, rfl, ?_⟩),
          cutOptional_eq_ok_iff.mpr (.inl ⟨rfl, rfl, ?_⟩), cutService_eq_ok_iff.mpr ⟨rfl, hcolon⟩,
          rfl⟩
        · rwa [not_mem_append_cons (by decide)]
        · rwa [not_mem_append_cons (by decide)]
    | _ => exact absurd rfl hbracket

/-- An IPv6 address goes one of four ways, and what is cut out is written for it. -/
lemma reads_of_parseStrings_inet6 (h : parseStrings .inet6 ptr = .ok address) :
    address.Reads ('['.toUInt8 :: ptr) := by
  obtain ⟨node, ptr₁, last, ptr₂, front, service, hnode, hlast, hservice, haddress⟩ :=
    parseStrings_eq_ok_iff.mp h
  obtain ⟨rfl, hcolon⟩ := cutService_eq_ok_iff.mp hservice
  obtain ⟨rfl, rfl, hpercent⟩ | ⟨node, rfl, rfl, hpercent, -⟩ := cutOptional_eq_ok_iff.mp hnode
  · obtain ⟨rfl, rfl, hclose⟩ | ⟨last, rfl, rfl, hclose, -⟩ := cutOptional_eq_ok_iff.mp hlast
    · rw [not_mem_append_cons (by decide)] at hpercent hclose
      rw [haddress]
      exact .inet6Open hcolon hpercent hclose
    · rw [not_mem_append_cons (by decide), ← List.append_assoc,
        not_mem_append_cons (by decide)] at hpercent
      rw [haddress]
      exact .inet6 hclose hcolon hpercent
  · obtain ⟨rfl, rfl, hclose⟩ | ⟨last, rfl, rfl, hclose, -⟩ := cutOptional_eq_ok_iff.mp hlast
    · rw [not_mem_append_cons (by decide)] at hclose
      rw [haddress]
      exact .zoneOpen hpercent hcolon hclose
    · rw [haddress]
      exact .zone hpercent hclose hcolon

/-- What is written for an IPv6 address is cut out by the searches. -/
lemma parseStrings_inet6_of_reads (h : address.Reads ('['.toUInt8 :: ptr)) :
    parseStrings .inet6 ptr = .ok address := by
  rw [parseStrings_eq_ok_iff]
  generalize htext : '['.toUInt8 :: ptr = text at h
  cases h with
  | @inet node service hbracket =>
      cases node with
      | nil => exact absurd (List.cons.inj htext).1 (by decide)
      | cons c cs => exact absurd (congrArg some (List.cons.inj htext).1.symm) hbracket
  | @inet6 node dropped service hclose hcolon hpercent =>
      obtain rfl := (List.cons.inj htext).2
      refine ⟨none, _, some node, _, dropped, service,
        cutOptional_eq_ok_iff.mpr (.inl ⟨rfl, rfl, ?_⟩),
        cutOptional_eq_ok_iff.mpr (.inr ⟨node, rfl, rfl, hclose, rfl⟩),
        cutService_eq_ok_iff.mpr ⟨rfl, hcolon⟩, rfl⟩
      rwa [not_mem_append_cons (by decide), ← List.append_assoc,
        not_mem_append_cons (by decide)]
  | @inet6Open node service hcolon hpercent hclose =>
      obtain rfl := (List.cons.inj htext).2
      refine ⟨none, _, none, _, node, service, cutOptional_eq_ok_iff.mpr (.inl ⟨rfl, rfl, ?_⟩),
        cutOptional_eq_ok_iff.mpr (.inl ⟨rfl, rfl, ?_⟩), cutService_eq_ok_iff.mpr ⟨rfl, hcolon⟩,
        rfl⟩
      · rwa [not_mem_append_cons (by decide)]
      · rwa [not_mem_append_cons (by decide)]
  | @zone node iface dropped service hpercent hclose hcolon =>
      obtain rfl := (List.cons.inj htext).2
      exact ⟨some node, _, some iface, _, dropped, service,
        cutOptional_eq_ok_iff.mpr (.inr ⟨node, rfl, rfl, hpercent, rfl⟩),
        cutOptional_eq_ok_iff.mpr (.inr ⟨iface, rfl, rfl, hclose, rfl⟩),
        cutService_eq_ok_iff.mpr ⟨rfl, hcolon⟩, rfl⟩
  | @zoneOpen node iface service hpercent hcolon hclose =>
      obtain rfl := (List.cons.inj htext).2
      refine ⟨some node, _, none, _, iface, service,
        cutOptional_eq_ok_iff.mpr (.inr ⟨node, rfl, rfl, hpercent, rfl⟩),
        cutOptional_eq_ok_iff.mpr (.inl ⟨rfl, rfl, ?_⟩), cutService_eq_ok_iff.mpr ⟨rfl, hcolon⟩,
        rfl⟩
      rwa [not_mem_append_cons (by decide)]

lemma parseStrings_inet6_iff :
    parseStrings .inet6 ptr = .ok address ↔ address.Reads ('['.toUInt8 :: ptr) :=
  ⟨reads_of_parseStrings_inet6, parseStrings_inet6_of_reads⟩

lemma not_reads_nil : ¬ address.Reads [] := by
  intro h
  generalize htext : ([] : List UInt8) = text at h
  cases h with
  | inet => simp at htext
  | _ => cases htext

/-- An interface needs brackets. -/
lemma error_of_parseAddress {e : UrlError} (h : parseAddress ptr = .error e) :
    (e = .proto ∧ ptr.head? ≠ some '['.toUInt8 ∧ '%'.toUInt8 ∈ ptr) ∨
      (e = .destAddrReq ∧ ¬ (ptr.head? ≠ some '['.toUInt8 ∧ '%'.toUInt8 ∈ ptr)) := by
  unfold parseAddress at h
  split_ifs at h with hbracket
  · obtain ⟨-, hfamily, -⟩ | ⟨he, -⟩ := error_of_parseStrings h
    · cases hfamily
    · exact .inr ⟨he, fun hnot => hnot.1 hbracket⟩
  · obtain ⟨he, -, hpercent⟩ | ⟨he, hnot⟩ := error_of_parseStrings h
    · exact .inl ⟨he, hbracket, hpercent⟩
    · exact .inr ⟨he, fun hpercent => hnot ⟨rfl, hpercent.2⟩⟩

theorem parseAddress_eq_ok_iff : parseAddress ptr = .ok address ↔ address.Reads ptr := by
  unfold parseAddress
  split_ifs with hbracket
  · obtain ⟨tail, rfl⟩ := List.head?_eq_some_iff.mp hbracket
    exact parseStrings_inet6_iff
  · exact parseStrings_inet_iff hbracket

end Addresses

/-! ## Prefixes -/

/-- No prefix is the start of another. -/
lemma Scheme.eq_of_prefix {s s' : Scheme} {url : List UInt8} (h : s.text <+: url)
    (h' : s'.text <+: url) : s = s' := by
  have hpair : ∀ s s' : Scheme, s.text <+: s'.text → s = s' := by
    intro s s'
    cases s <;> cases s' <;> decide
  rcases List.prefix_or_prefix_of_prefix h h' with hss | hss
  · exact hpair s s' hss
  · exact (hpair s' s hss).symm

lemma find_scheme_eq_some_iff {scheme : Scheme} {url : List UInt8} :
    Scheme.all.find? (fun scheme => scheme.text.isPrefixOf url) = some scheme ↔
      scheme.text <+: url := by
  constructor
  · intro h
    have hstart : scheme.text.isPrefixOf url = true := by simpa using List.find?_some h
    exact List.isPrefixOf_iff_prefix.mp hstart
  · intro h
    have hmem : scheme ∈ Scheme.all := by cases scheme <;> decide
    have hsome : (Scheme.all.find? fun scheme => scheme.text.isPrefixOf url).isSome :=
      List.find?_isSome.mpr ⟨scheme, hmem, List.isPrefixOf_iff_prefix.mpr h⟩
    obtain ⟨scheme', hfind⟩ := Option.isSome_iff_exists.mp hsome
    have hstart : scheme'.text.isPrefixOf url = true := by simpa using List.find?_some hfind
    rw [hfind, Scheme.eq_of_prefix (List.isPrefixOf_iff_prefix.mp hstart) h]

lemma parseUrl_text (scheme : Scheme) (ptr : List UInt8) :
    parseUrl (scheme.text ++ ptr) =
      if ptr.length = 0 then .error .destAddrReq
      else if scheme = .serial then .ok (.serial ptr)
      else (parseAddress ptr).map (.socket scheme.slip scheme.datagram) := by
  rw [parseUrl, find_scheme_eq_some_iff.mpr (List.prefix_append scheme.text ptr)]
  simp only [List.drop_left]

/-- A URL has a known prefix or is refused at once. -/
lemma parseUrl_cases (url : List UInt8) :
    (∃ (scheme : Scheme) (ptr : List UInt8), url = scheme.text ++ ptr) ∨
      (∀ scheme : Scheme, ¬ scheme.text <+: url) ∧ parseUrl url = .error .noProtoOpt := by
  by_cases hstart : ∃ scheme : Scheme, scheme.text <+: url
  · obtain ⟨scheme, ptr, rfl⟩ := hstart
    exact .inl ⟨scheme, ptr, rfl⟩
  · rw [not_exists] at hstart
    have hfind : Scheme.all.find? (fun scheme => scheme.text.isPrefixOf url) = none :=
      Option.eq_none_iff_forall_ne_some.mpr fun scheme hfind =>
        hstart scheme (find_scheme_eq_some_iff.mp hfind)
    exact .inr ⟨hstart, by rw [parseUrl, hfind]⟩

/-- **URLs.**  A URL is accepted exactly if it is written for a target. -/
theorem parseUrl_eq_ok_iff {url : List UInt8} {target : StreamTarget} :
    parseUrl url = .ok target ↔ target.Reads url := by
  constructor
  · intro h
    obtain ⟨scheme, ptr, rfl⟩ | ⟨-, hfail⟩ := parseUrl_cases url
    · rw [parseUrl_text] at h
      split_ifs at h with hempty hserial
      · cases h
        subst hserial
        exact .serial fun hnil => hempty (by rw [hnil, List.length_nil])
      · cases haddress : parseAddress ptr with
        | error e =>
            rw [haddress] at h
            cases h
        | ok address =>
            rw [haddress] at h
            cases h
            exact .socket hserial (parseAddress_eq_ok_iff.mp haddress)
    · rw [hfail] at h
      cases h
  · intro h
    cases h with
    | @serial device hne =>
        rw [parseUrl_text, if_neg (by rwa [List.length_eq_zero_iff]), if_pos rfl]
    | @socket scheme address text hscheme htext =>
        have hne : text.length ≠ 0 := by
          rw [Ne, List.length_eq_zero_iff]
          rintro rfl
          exact not_reads_nil htext
        rw [parseUrl_text, if_neg hne, if_neg hscheme, parseAddress_eq_ok_iff.mpr htext]
        rfl

lemma error_of_parseUrl_text {scheme : Scheme} {ptr : List UInt8} {e : UrlError}
    (h : parseUrl (scheme.text ++ ptr) = .error e) :
    e = .destAddrReq ∨ scheme ≠ .serial ∧ parseAddress ptr = .error e := by
  rw [parseUrl_text] at h
  split_ifs at h with hempty hserial
  · exact .inl (Except.error.inj h).symm
  · refine .inr ⟨hserial, ?_⟩
    cases haddress : parseAddress ptr with
    | error e' =>
        rw [haddress] at h
        cases h
        rfl
    | ok address =>
        rw [haddress] at h
        cases h

lemma not_reads_of_percent {address : StreamAddress} {ptr : List UInt8}
    (hbracket : ptr.head? ≠ some '['.toUInt8) (hpercent : '%'.toUInt8 ∈ ptr) :
    ¬ address.Reads ptr := by
  intro h
  cases h with
  | inet _ _ hnot =>
      rw [← @not_mem_append_cons _ ':'.toUInt8 _ _ (by decide)] at hnot
      exact hnot hpercent
  | _ => exact hbracket rfl

/-- **URLs.**  A URL is accepted exactly if it is written for a target, and then it is written for
no other one.  Without a known prefix it is refused with `ENOPROTOOPT`, and with an interface
outside of brackets with `EPROTOTYPE`; everything else that is missing is an address. -/
theorem parseUrl_spec (url : List UInt8) :
    (∀ target, parseUrl url = .ok target ↔ target.Reads url) ∧
    (parseUrl url = .error .noProtoOpt ↔ ∀ scheme : Scheme, ¬ scheme.text <+: url) ∧
    (parseUrl url = .error .proto ↔ ∃ (scheme : Scheme) (ptr : List UInt8),
      url = scheme.text ++ ptr ∧ scheme ≠ .serial ∧ ptr.head? ≠ some '['.toUInt8 ∧
        '%'.toUInt8 ∈ ptr) := by
  refine ⟨fun target => parseUrl_eq_ok_iff, ?_, ?_⟩
  · obtain ⟨scheme, ptr, rfl⟩ | ⟨hnot, hfail⟩ := parseUrl_cases url
    · refine iff_of_false (fun h => ?_) fun h => h scheme (List.prefix_append scheme.text ptr)
      obtain h | ⟨-, h⟩ := error_of_parseUrl_text h
      · cases h
      · obtain ⟨h, -⟩ | ⟨h, -⟩ := error_of_parseAddress h
        · cases h
        · cases h
    · exact iff_of_true hfail hnot
  · constructor
    · intro h
      obtain ⟨scheme, ptr, rfl⟩ | ⟨-, hfail⟩ := parseUrl_cases url
      · obtain h | ⟨hserial, h⟩ := error_of_parseUrl_text h
        · cases h
        · obtain ⟨-, hbracket, hpercent⟩ | ⟨h, -⟩ := error_of_parseAddress h
          · exact ⟨scheme, ptr, rfl, hserial, hbracket, hpercent⟩
          · cases h
      · rw [hfail] at h
        cases h
    · rintro ⟨scheme, ptr, rfl, hserial, hbracket, hpercent⟩
      have hne : ptr.length ≠ 0 := by
        rw [Ne, List.length_eq_zero_iff]
        exact List.ne_nil_of_mem hpercent
      rw [parseUrl_text, if_neg hne, if_neg hserial]
      cases haddress : parseAddress ptr with
      | ok address =>
          exact absurd (parseAddress_eq_ok_iff.mp haddress)
            (not_reads_of_percent hbracket hpercent)
      | error e =>
          obtain ⟨rfl, -⟩ | ⟨-, hnot⟩ := error_of_parseAddress haddress
          · rfl
          · exact absurd ⟨hbracket, hpercent⟩ hnot

end MonoBus
