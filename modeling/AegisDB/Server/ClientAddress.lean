import AegisDB.Library.Bytes
import AegisDB.Library.IpAddress

/-!
# The address of a client

A request that comes through proxies has the address of its client in a header, to which each proxy
adds the address that it received the request from.  The server reads the first header line of that
name from the right, up to the first address that is not a trusted proxy.  So what a client writes
there itself can be taken for its address, unless the first proxy adds to the first line, and this
line can be read.
-/

namespace AegisDB

namespace Server

/-- The header lines that tell addresses, as bytes and in their order. -/
structure HeaderMap where
  xForwardedFor : List Bytes
  xRealIp : List Bytes

/-- The text of a header value, if all of its bytes are visible. -/
def toStr (value : Bytes) : Option (List Char) :=
  if value.all fun b => b == 9 || (32 ≤ b && b < 127) then
    some (value.map fun b => Char.ofNat b.toNat)
  else none

def trustedAddrs (trustedProxies : List String) : List IpAddr :=
  trustedProxies.filterMap fun p => parseIpAddr (trimText p.toList)

/-- The addresses in a list; items that are none are passed over. -/
def hopsOf (xff : List Char) : List IpAddr :=
  (xff.splitOn ',').filterMap fun h => parseIpAddr (trimText h)

def lastUntrusted (trusted hops : List IpAddr) : Option IpAddr :=
  hops.reverse.find? fun ip => ip ∉ trusted

def lineClient (trusted : List IpAddr) (line : Bytes) : Option IpAddr :=
  (toStr line).bind fun xff => lastUntrusted trusted (hopsOf xff)

def realIp (headers : HeaderMap) : Option IpAddr :=
  (headers.xRealIp.head?.bind toStr).bind fun real => parseIpAddr (trimText real)

/-- The address of the client of a request. -/
def resolveClientIp (peer : Option IpAddr) (headers : HeaderMap) (trustedProxies : List String) :
    String :=
  let trusted := trustedAddrs trustedProxies
  match peer with
  | none => "unknown"
  | some peer =>
      if peer ∉ trusted then peer.toText
      else
        match headers.xForwardedFor.head?.bind (lineClient trusted) with
        | some client => client.toText
        | none =>
            match realIp headers with
            | some real => real.toText
            | none => peer.toText

/-! ## Proxies -/

/-- How a proxy adds an address. -/
inductive AddStyle where
  | listItem
  | headerLine
deriving DecidableEq

/-- A proxy, with what it adds to a request. -/
structure Proxy where
  address : IpAddr
  style : AddStyle
  item : Bytes

def Spells (item : Bytes) (addr : IpAddr) : Prop :=
  ∃ text, toStr item = some text ∧ ',' ∉ text ∧ parseIpAddr (trimText text) = some addr

/-- Each proxy adds the address that it receives the request from. -/
def AddsSource : IpAddr → List Proxy → Prop
  | _, [] => True
  | source, proxy :: proxies => Spells proxy.item source ∧ AddsSource proxy.address proxies

def addLine (lines : List Bytes) (proxy : Proxy) : List Bytes :=
  match proxy.style, lines.getLast? with
  | .listItem, some last => lines.dropLast ++ [last ++ 44 :: proxy.item]
  | _, _ => lines ++ [proxy.item]

def passOn (own : HeaderMap) (proxies : List Proxy) : HeaderMap :=
  { own with xForwardedFor := proxies.foldl addLine own.xForwardedFor }

/-- The address that the server receives a request from. -/
def lastAddress : IpAddr → List Proxy → IpAddr
  | source, [] => source
  | _, proxy :: proxies => lastAddress proxy.address proxies

def readable (line : Bytes) : Bool :=
  (toStr line).isSome

/-- Whatever a client sends itself, in so many header lines that can be read or not, the server has
the address from which the first proxy received the request. -/
def Unforgeable (trustedProxies : List String) (client : IpAddr) (proxies : List Proxy)
    (shape : List Bool) : Prop :=
  ∀ own : HeaderMap, own.xForwardedFor.map readable = shape →
    resolveClientIp (some (lastAddress client proxies)) (passOn own proxies) trustedProxies =
      client.toText

/-! ## What a header line tells -/

section Lines

variable {trusted : List IpAddr} {line item : Bytes} {source : IpAddr}

theorem toStr_append (a b : Bytes) :
    toStr (a ++ b) = (toStr a).bind fun t => (toStr b).map fun u => t ++ u := by
  unfold toStr
  rw [List.all_append]
  cases a.all fun b => b == 9 || (32 ≤ b && b < 127)
  · rfl
  · cases b.all fun b => b == 9 || (32 ≤ b && b < 127)
    · rfl
    · simp

theorem hopsOf_append (t u : List Char) : hopsOf (t ++ ',' :: u) = hopsOf t ++ hopsOf u := by
  rw [hopsOf, List.splitOn_append_cons_self, List.filterMap_append]
  rfl

theorem Spells.hopsOf (h : Spells item source) :
    ∃ text, toStr item = some text ∧ hopsOf text = [source] := by
  obtain ⟨text, htext, hcomma, hparse⟩ := h
  refine ⟨text, htext, ?_⟩
  rw [Server.hopsOf, List.splitOn_eq_singleton hcomma, List.filterMap_cons, hparse]
  rfl

theorem lastUntrusted_concat (hops : List IpAddr) (ip : IpAddr) :
    lastUntrusted trusted (hops ++ [ip]) =
      if ip ∈ trusted then lastUntrusted trusted hops else some ip := by
  rw [lastUntrusted, List.reverse_append, List.reverse_singleton, List.singleton_append,
    List.find?_cons]
  by_cases h : ip ∈ trusted <;> simp [h, lastUntrusted]

theorem lineClient_item (h : Spells item source) :
    lineClient trusted item = if source ∈ trusted then none else some source := by
  obtain ⟨text, htext, hhops⟩ := h.hopsOf
  have hnone : lastUntrusted trusted [] = none := rfl
  rw [lineClient, htext, Option.bind_some, hhops, ← List.nil_append [source],
    lastUntrusted_concat, hnone]

theorem lineClient_append_item (h : Spells item source) :
    lineClient trusted (line ++ 44 :: item) =
      if source ∈ trusted ∨ readable line = false then lineClient trusted line
      else some source := by
  obtain ⟨text, htext, hhops⟩ := h.hopsOf
  have hcomma : toStr (44 :: item) = some (',' :: text) := by
    have := toStr_append [44] item
    rw [htext] at this
    exact this
  rw [lineClient, lineClient, readable, toStr_append, hcomma]
  cases toStr line with
  | none => exact (if_pos (.inr rfl)).symm
  | some t =>
    rw [Option.bind_some, Option.bind_some, Option.map_some, Option.bind_some, hopsOf_append,
      hhops, lastUntrusted_concat]
    simp

end Lines

/-! ## What the first header line tells -/

section FirstLine

variable {trusted : List IpAddr} {source : IpAddr}

def listed (proxies : List Proxy) : Bytes :=
  (proxies.takeWhile fun p => p.style = .listItem).flatMap fun p => 44 :: p.item

theorem addLine_concat (lines : List Bytes) (last : Bytes) (p : Proxy) :
    addLine (lines ++ [last]) p =
      if p.style = .listItem then lines ++ [last ++ 44 :: p.item]
      else lines ++ [last] ++ [p.item] := by
  rw [addLine, List.getLast?_concat, List.dropLast_concat]
  cases p.style <;> rfl

theorem head?_foldl_many (line last : Bytes) (lines : List Bytes) (proxies : List Proxy) :
    (proxies.foldl addLine (line :: lines ++ [last])).head? = some line := by
  induction proxies generalizing lines last with
  | nil => rfl
  | cons p proxies ih =>
    rw [List.foldl_cons, addLine_concat]
    split_ifs
    · exact ih _ lines
    · exact ih _ (lines ++ [last])

theorem head?_foldl_singleton (line : Bytes) (proxies : List Proxy) :
    (proxies.foldl addLine [line]).head? = some (line ++ listed proxies) := by
  induction proxies generalizing line with
  | nil => simp [listed]
  | cons p proxies ih =>
    rw [List.foldl_cons, ← List.nil_append [line], addLine_concat]
    split_ifs with hstyle
    · have hlisted : listed (p :: proxies) = 44 :: p.item ++ listed proxies := by
        simp [listed, hstyle]
      rw [hlisted, ← List.append_assoc]
      exact ih _
    · have hlisted : listed (p :: proxies) = [] := by
        simp [listed, hstyle]
      rw [hlisted, List.append_nil]
      exact head?_foldl_many line p.item [] proxies

theorem lineClient_listed {proxies : List Proxy} (hadds : AddsSource source proxies)
    (hsource : source ∈ trusted) (hproxies : ∀ p ∈ proxies, p.address ∈ trusted) (line : Bytes) :
    lineClient trusted (line ++ listed proxies) = lineClient trusted line := by
  induction proxies generalizing source line with
  | nil => simp [listed]
  | cons p proxies ih =>
    obtain ⟨hspells, hadds⟩ := hadds
    by_cases hstyle : p.style = .listItem
    · have hlisted : listed (p :: proxies) = 44 :: p.item ++ listed proxies := by
        simp [listed, hstyle]
      rw [hlisted, ← List.append_assoc, ih hadds (hproxies p List.mem_cons_self)
        (fun q hq => hproxies q (List.mem_cons_of_mem _ hq)), lineClient_append_item hspells,
        if_pos (.inl hsource)]
    · have hlisted : listed (p :: proxies) = [] := by
        simp [listed, hstyle]
      rw [hlisted, List.append_nil]

/-- What the first header line tells behind proxies of which the first received the request from a
client: the client, if its address is not trusted and stands in that line. -/
theorem head?_passOn {first : Proxy} {rest : List Proxy} {client : IpAddr}
    (htrusted : ∀ p ∈ first :: rest, p.address ∈ trusted)
    (hadds : AddsSource client (first :: rest)) (lines : List Bytes) :
    ((first :: rest).foldl addLine lines).head?.bind (lineClient trusted) =
      match lines with
      | [] => if client ∈ trusted then none else some client
      | [line] =>
          if client ∉ trusted ∧ readable line = true ∧ first.style = .listItem then some client
          else lineClient trusted line
      | line :: _ :: _ => lineClient trusted line := by
  obtain ⟨hspells, hadds⟩ := hadds
  have hfirst : first.address ∈ trusted := htrusted first List.mem_cons_self
  have hrest : ∀ p ∈ rest, p.address ∈ trusted :=
    fun p hp => htrusted p (List.mem_cons_of_mem _ hp)
  have hsingle (line : Bytes) : (rest.foldl addLine [line]).head?.bind (lineClient trusted) =
      lineClient trusted line := by
    rw [head?_foldl_singleton line rest, Option.bind_some,
      lineClient_listed hadds hfirst hrest]
  rcases lines with _ | ⟨line, _ | ⟨line', lines⟩⟩
  · have hadd : addLine [] first = [first.item] := by
      unfold addLine
      cases first.style <;> rfl
    rw [List.foldl_cons, hadd, hsingle, lineClient_item hspells]
  · rw [List.foldl_cons, ← List.nil_append [line], addLine_concat]
    by_cases hstyle : first.style = .listItem
    · rw [if_pos hstyle, List.nil_append, hsingle, lineClient_append_item hspells]
      cases hreadable : readable line <;> by_cases hclient : client ∈ trusted <;>
        simp [hstyle, hclient, hreadable]
    · have hfirstLine := head?_foldl_many line first.item [] rest
      rw [if_neg hstyle, List.nil_append]
      simp only [hstyle, and_false, if_false]
      exact congrArg (fun o => o.bind (lineClient trusted)) hfirstLine
  · change _ = lineClient trusted line
    obtain ⟨init, last, hlast⟩ :=
      (List.eq_nil_or_concat' (line' :: lines)).resolve_left (List.cons_ne_nil _ _)
    rw [hlast, ← List.cons_append, head?_foldl_many]
    rfl

end FirstLine

/-! ## Forged addresses -/

theorem lastAddress_mem {trusted : List IpAddr} {source : IpAddr} {proxies : List Proxy}
    (hsource : source ∈ trusted) (hproxies : ∀ p ∈ proxies, p.address ∈ trusted) :
    lastAddress source proxies ∈ trusted := by
  induction proxies generalizing source with
  | nil => exact hsource
  | cons p proxies ih =>
    exact ih (hproxies p List.mem_cons_self) fun q hq => hproxies q (List.mem_cons_of_mem _ hq)

theorem exists_forgery (text : String) :
    ∃ value addr, (toStr value).bind (fun real => parseIpAddr (trimText real)) = some addr ∧
      addr.toText ≠ text := by
  have hone : (toStr [49, 46, 49, 46, 49, 46, 49]).bind
      (fun real => parseIpAddr (trimText real)) = some (.v4 1 1 1 1) := by decide +kernel
  have htwo : (toStr [50, 46, 50, 46, 50, 46, 50]).bind
      (fun real => parseIpAddr (trimText real)) = some (.v4 2 2 2 2) := by decide +kernel
  have hdiff : (IpAddr.v4 1 1 1 1).toText ≠ (IpAddr.v4 2 2 2 2).toText := by decide +kernel
  by_cases h : (IpAddr.v4 1 1 1 1).toText = text
  · exact ⟨_, _, htwo, fun h' => hdiff (h.trans h'.symm)⟩
  · exact ⟨_, _, hone, h⟩

/-- Behind trusted proxies a client cannot forge its address if and only if that address is not
trusted, and the client sends no such header line itself, or one that can be read and to which the
first proxy adds. -/
theorem unforgeable_iff (trustedProxies : List String) (client : IpAddr) (first : Proxy)
    (rest : List Proxy) (shape : List Bool)
    (htrusted : ∀ p ∈ first :: rest, p.address ∈ trustedAddrs trustedProxies)
    (hadds : AddsSource client (first :: rest)) :
    Unforgeable trustedProxies client (first :: rest) shape ↔
      client ∉ trustedAddrs trustedProxies ∧
        (shape = [] ∨ shape = [true] ∧ first.style = .listItem) := by
  have hpeer : lastAddress first.address rest ∈ trustedAddrs trustedProxies :=
    lastAddress_mem (htrusted first List.mem_cons_self)
      fun p hp => htrusted p (List.mem_cons_of_mem _ hp)
  have htold (own : HeaderMap) := head?_passOn htrusted hadds own.xForwardedFor
  constructor
  · intro h
    -- The client sends lines that tell nothing, and another address in the other header.
    obtain ⟨value, addr, hvalue, hforged⟩ := exists_forgery client.toText
    let lineOf (b : Bool) : Bytes := if b then [] else [255]
    have hreadable (b : Bool) : readable (lineOf b) = b := by cases b <;> decide
    have hnothing (b : Bool) : lineClient (trustedAddrs trustedProxies) (lineOf b) = none := by
      cases b
      · rfl
      · have hhops : hopsOf [] = [] := by decide +kernel
        exact congrArg (lastUntrusted (trustedAddrs trustedProxies)) hhops
    let own : HeaderMap := ⟨shape.map lineOf, [value]⟩
    have hshape : own.xForwardedFor.map readable = shape := by
      rw [List.map_map]
      exact (List.map_congr_left fun b _ => hreadable b).trans (List.map_id _)
    have hresolved := h own hshape
    rw [resolveClientIp, lastAddress, if_neg (not_not.mpr hpeer), passOn, htold own] at hresolved
    have hreal : realIp { own with
        xForwardedFor := (first :: rest).foldl addLine own.xForwardedFor } = some addr := hvalue
    rw [hreal] at hresolved
    by_contra hcondition
    refine hforged ?_
    rcases shape with _ | ⟨b, _ | ⟨b', shape⟩⟩
    · have hclient : client ∈ trustedAddrs trustedProxies := by
        by_contra hclient
        exact hcondition ⟨hclient, .inl rfl⟩
      simpa [own, hclient] using hresolved
    · have hno : ¬ (client ∉ trustedAddrs trustedProxies ∧ readable (lineOf b) = true ∧
          first.style = .listItem) := by
        rintro ⟨hclient, hb, hstyle⟩
        rw [hreadable] at hb
        exact hcondition ⟨hclient, .inr ⟨by rw [hb], hstyle⟩⟩
      simpa only [own, List.map_cons, List.map_nil, if_neg hno, hnothing] using hresolved
    · simpa only [own, List.map_cons, hnothing] using hresolved
  · rintro ⟨hclient, hshape⟩ own hown
    have hfound : ((first :: rest).foldl addLine own.xForwardedFor).head?.bind
        (lineClient (trustedAddrs trustedProxies)) = some client := by
      rw [htold own]
      rcases hshape with rfl | ⟨rfl, hstyle⟩
      · rw [List.map_eq_nil_iff.mp hown]
        exact if_neg hclient
      · obtain ⟨line, hline, hreadable⟩ := List.map_eq_singleton_iff.mp hown
        rw [hline]
        exact if_pos ⟨hclient, hreadable, hstyle⟩
    rw [resolveClientIp, lastAddress, if_neg (not_not.mpr hpeer), passOn, hfound]

/-- The proxy of the machine itself, which adds the address of a client to the header line. -/
def localProxy (style : AddStyle) : Proxy where
  address := .v4 127 0 0 1
  style := style
  item := [57, 46, 57, 46, 57, 46, 57]

theorem localProxy_adds (style : AddStyle) :
    (∀ p ∈ [localProxy style], p.address ∈ trustedAddrs ["127.0.0.1"]) ∧
      AddsSource (.v4 9 9 9 9) [localProxy style] := by
  have htext : toStr [57, 46, 57, 46, 57, 46, 57] = some ['9', '.', '9', '.', '9', '.', '9'] := by
    decide +kernel
  refine ⟨fun p hp => ?_, ⟨['9', '.', '9', '.', '9', '.', '9'], htext, by decide, ?_⟩, trivial⟩
  · rw [List.mem_singleton.mp hp]
    change IpAddr.v4 127 0 0 1 ∈ trustedAddrs ["127.0.0.1"]
    decide +kernel
  · decide +kernel

/-- One readable line of the client, to which the proxy adds, does not help to forge an address. -/
theorem unforgeable_iff_local :
    Unforgeable ["127.0.0.1"] (.v4 9 9 9 9) [localProxy .listItem] [true] :=
  (unforgeable_iff ["127.0.0.1"] (.v4 9 9 9 9) (localProxy .listItem) [] [true]
    (localProxy_adds .listItem).1 (localProxy_adds .listItem).2).mpr
      ⟨by decide +kernel, .inr ⟨rfl, rfl⟩⟩

/-- A proxy that adds a header line of its own leaves the client's line in front, and the server
takes the address that the client wrote. -/
theorem not_unforgeable :
    ¬ Unforgeable ["127.0.0.1"] (.v4 9 9 9 9) [localProxy .headerLine] [true] := by
  intro h
  have hresolved := h ⟨[[49, 46, 49, 46, 49, 46, 49]], []⟩ (by decide +kernel)
  exact absurd hresolved (by decide +kernel)

end Server

end AegisDB
