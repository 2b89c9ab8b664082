import Mathlib.Data.List.Basic

/-!
# The URL of a stream (`_lv2_osc_stream_reinit`)

The prefix of a URL chooses the socket and the framing.  Behind it stands a device, or an address
that is taken apart from left to right: each search for a character goes on where the last one
has stopped, and a string ends where the next terminator is written.

`StreamAddress.Reads` is the grammar of the addresses that are accepted, one rule for each way
through the searches.
-/

namespace MonoBus

/-! ## The source -/

/-- The errors `_lv2_osc_stream_reinit` finds in a URL. -/
inductive UrlError
  | noProtoOpt
  | destAddrReq
  | proto
  deriving DecidableEq, Repr

/-- `udp_prefix`, `tcp_prefix`, `tcp_slip_prefix`, `tcp_prefix_prefix` and `ser_prefix`. -/
inductive Scheme
  | udp
  | tcp
  | tcpSlip
  | tcpPrefix
  | serial
  deriving DecidableEq, Repr

namespace Scheme

/-- The prefixes, in the order in which they are tried. -/
def all : List Scheme := [.udp, .tcp, .tcpSlip, .tcpPrefix, .serial]

/-- The text of a prefix. -/
def text : Scheme → List UInt8
  | .udp => ['o', 's', 'c', '.', 'u', 'd', 'p', ':', '/', '/'].map Char.toUInt8
  | .tcp => ['o', 's', 'c', '.', 't', 'c', 'p', ':', '/', '/'].map Char.toUInt8
  | .tcpSlip =>
      ['o', 's', 'c', '.', 's', 'l', 'i', 'p', '.', 't', 'c', 'p', ':', '/', '/'].map
        Char.toUInt8
  | .tcpPrefix =>
      ['o', 's', 'c', '.', 'p', 'r', 'e', 'f', 'i', 'x', '.', 't', 'c', 'p', ':', '/', '/'].map
        Char.toUInt8
  | .serial =>
      ['o', 's', 'c', '.', 's', 'e', 'r', 'i', 'a', 'l', ':', '/', '/'].map Char.toUInt8

/-- `stream->slip`. -/
def slip : Scheme → Bool
  | .udp | .tcpPrefix => false
  | .tcp | .tcpSlip | .serial => true

/-- `stream->socket_type` is `SOCK_DGRAM`. -/
def datagram : Scheme → Bool
  | .udp => true
  | .tcp | .tcpSlip | .tcpPrefix | .serial => false

end Scheme

/-- `stream->socket_family`. -/
inductive SocketFamily
  | inet
  | inet6
  deriving DecidableEq, Repr

/-- What has been cut out of an address.  A missing `node` or `iface` is `NULL`. -/
structure StreamAddress where
  family : SocketFamily
  node : Option (List UInt8)
  iface : Option (List UInt8)
  service : List UInt8
  server : Bool
  deriving DecidableEq, Repr

/-- What a URL asks for: a serial line, which is always SLIP, or a socket with `stream->slip` and
its type. -/
inductive StreamTarget
  | serial (device : List UInt8)
  | socket (slip datagram : Bool) (address : StreamAddress)
  deriving DecidableEq, Repr

/-- `strchr(ptr, c)`: what stands in front of the first such character, and behind it. -/
def strchr (c : UInt8) : List UInt8 → Option (List UInt8 × List UInt8)
  | [] => none
  | b :: bs =>
      if b = c then some ([], bs)
      else (strchr c bs).map fun (front, behind) => (b :: front, behind)

/-- A search that may find nothing: the string that ends here, if there is one, and what the next
search goes on with.  Only an IPv6 address has the character. -/
def cutOptional (c : UInt8) (e : UrlError) (family : SocketFamily) (ptr : List UInt8) :
    Except UrlError (Option (List UInt8) × List UInt8) :=
  match strchr c ptr with
  | none => .ok (none, ptr)
  | some (front, ptr) => if family ≠ .inet6 then .error e else .ok (some front, ptr)

/-- The search for `'%'`. -/
def cutNode : SocketFamily → List UInt8 → Except UrlError (Option (List UInt8) × List UInt8) :=
  cutOptional '%'.toUInt8 .proto

/-- The search for `']'`. -/
def cutBracket : SocketFamily → List UInt8 → Except UrlError (Option (List UInt8) × List UInt8) :=
  cutOptional ']'.toUInt8 .destAddrReq

/-- The search for `':'`. -/
def cutService (ptr : List UInt8) : Except UrlError (List UInt8 × List UInt8) :=
  match strchr ':'.toUInt8 ptr with
  | none => .error .destAddrReq
  | some (front, service) => .ok (front, service)

/-- The address, with the strings that the terminators leave.  Without a node it is a server. -/
def StreamAddress.ofStrings (family : SocketFamily) (node : List UInt8)
    (iface : Option (List UInt8)) (service : List UInt8) : StreamAddress where
  family := family
  node := if node.length = 0 then none else some node
  iface := iface
  service := service
  server := decide (node.length = 0)

/-- The three searches. -/
def parseStrings (family : SocketFamily) (ptr : List UInt8) : Except UrlError StreamAddress := do
  let (node, ptr) ← cutNode family ptr
  let (last, ptr) ← cutBracket family ptr
  let (front, service) ← cutService ptr
  -- the string that was open until the bracket, or else until the colon
  let last := last.getD front
  match node with
  | none => return .ofStrings family last none service
  | some node => return .ofStrings family node (some last) service

/-- The branch of `_lv2_osc_stream_reinit` for sockets, up to the call of `socket`. -/
def parseAddress (ptr : List UInt8) : Except UrlError StreamAddress :=
  if ptr.head? = some '['.toUInt8 then parseStrings .inet6 ptr.tail else parseStrings .inet ptr

/-- `_lv2_osc_stream_reinit`, up to the first call of the operating system. -/
def parseUrl (url : List UInt8) : Except UrlError StreamTarget :=
  match Scheme.all.find? fun scheme => scheme.text.isPrefixOf url with
  | none => .error .noProtoOpt
  | some scheme =>
      let ptr := url.drop scheme.text.length
      if ptr.length = 0 then .error .destAddrReq
      else if scheme = .serial then .ok (.serial ptr)
      else (parseAddress ptr).map (.socket scheme.slip scheme.datagram)

/-! ## The grammar -/

/-- How an address is written.  A bracket may stay open, and what stands between a closed bracket
and the colon is dropped. -/
inductive StreamAddress.Reads : StreamAddress → List UInt8 → Prop
  | inet {node service : List UInt8} (hbracket : node.head? ≠ some '['.toUInt8)
      (hcolon : ':'.toUInt8 ∉ node)
      (hpercent : '%'.toUInt8 ∉ node ++ service) (hclose : ']'.toUInt8 ∉ node ++ service) :
      StreamAddress.Reads (.ofStrings .inet node none service) (node ++ ':'.toUInt8 :: service)
  | inet6 {node dropped service : List UInt8} (hclose : ']'.toUInt8 ∉ node)
      (hcolon : ':'.toUInt8 ∉ dropped)
      (hpercent : '%'.toUInt8 ∉ node ++ dropped ++ service) :
      StreamAddress.Reads (.ofStrings .inet6 node none service)
        ('['.toUInt8 :: (node ++ ']'.toUInt8 :: (dropped ++ ':'.toUInt8 :: service)))
  | inet6Open {node service : List UInt8} (hcolon : ':'.toUInt8 ∉ node)
      (hpercent : '%'.toUInt8 ∉ node ++ service) (hclose : ']'.toUInt8 ∉ node ++ service) :
      StreamAddress.Reads (.ofStrings .inet6 node none service)
        ('['.toUInt8 :: (node ++ ':'.toUInt8 :: service))
  | zone {node iface dropped service : List UInt8} (hpercent : '%'.toUInt8 ∉ node)
      (hclose : ']'.toUInt8 ∉ iface) (hcolon : ':'.toUInt8 ∉ dropped) :
      StreamAddress.Reads (.ofStrings .inet6 node (some iface) service)
        ('['.toUInt8 :: (node ++ '%'.toUInt8 ::
          (iface ++ ']'.toUInt8 :: (dropped ++ ':'.toUInt8 :: service))))
  | zoneOpen {node iface service : List UInt8} (hpercent : '%'.toUInt8 ∉ node)
      (hcolon : ':'.toUInt8 ∉ iface) (hclose : ']'.toUInt8 ∉ iface ++ service) :
      StreamAddress.Reads (.ofStrings .inet6 node (some iface) service)
        ('['.toUInt8 :: (node ++ '%'.toUInt8 :: (iface ++ ':'.toUInt8 :: service)))

/-- How a target is written. -/
inductive StreamTarget.Reads : StreamTarget → List UInt8 → Prop
  | serial {device : List UInt8} (hne : device ≠ []) :
      StreamTarget.Reads (.serial device) (Scheme.serial.text ++ device)
  | socket {scheme : Scheme} {address : StreamAddress} {text : List UInt8}
      (hscheme : scheme ≠ .serial) (htext : address.Reads text) :
      StreamTarget.Reads (.socket scheme.slip scheme.datagram address) (scheme.text ++ text)

end MonoBus
