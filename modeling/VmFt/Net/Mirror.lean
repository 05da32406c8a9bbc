import VmFt.Dare.Tailq

/-! # The mirrored packet stream

The leader submits the packets of a batch behind a table of their lengths. The
proxy of a backup writes each packet with its length to the mirror socket, and
the redirector there puts the packets together again from whatever pieces the
socket delivers.
-/

namespace VmFt.Net

open VmFt.Memory VmFt.Dare.Ring List Option

abbrev Packet : Type := List UInt8

def NET_BUFSIZE : ℕ := 4096 + 65536

/-- The four bytes of a length in network order. -/
def htonl (n : ℕ) : List UInt8 := (bytesOf 4 n).reverse

def ntohl (bytes : List UInt8) : ℕ := ofBytes bytes.reverse

/-! ### Batches -/

/-- The number of packets and their lengths, each of type `ssize_t`. -/
def batchHeader (iovs : List Packet) : List UInt8 :=
  bytesOf 8 iovs.length ++ iovs.flatMap fun iov => bytesOf 8 iov.length

/-- The buffer that `make_consensus` submits when it batches. -/
def encodeBatch (iovs : List Packet) : List UInt8 :=
  batchHeader iovs ++ iovs.flatten

/-- What is read at an offset of the data; reading behind its end is not defined. -/
def slice (data : List UInt8) (offset n : ℕ) : Option (List UInt8) :=
  if offset + n ≤ data.length then some ((data.drop offset).take n) else none

/-- The loop of `do_action_send` over the table of lengths; each `send` writes all its bytes. -/
def sendPackets (data : List UInt8) : List ℕ → ℕ → Option (List (List UInt8))
  | [], _ => some []
  | length :: lengths, offset => do
    let body ← slice data offset length
    let sends ← sendPackets data lengths (offset + length)
    return htonl length :: body :: sends

def sendBatch (data : List UInt8) : Option (List (List UInt8)) := do
  let npackets := ofBytes (← slice data 0 8)
  let table ← slice data 8 (npackets * 8)
  let lengths := (range npackets).map fun i => ofBytes ((table.drop (i * 8)).take 8)
  sendPackets data lengths ((npackets + 1) * 8)

def doActionSend (batching e1000Speedup : Bool) (proxy : Proxy) (data : List UInt8) :
    Option (Proxy × List (List UInt8)) :=
  (if batching && e1000Speedup then sendBatch data else some [htonl data.length, data]).map
    fun sends => ({ proxy with syncReqId := proxy.syncReqId + 1 }, sends)

/-- The writes for a sequence of entries. -/
def doActionsSend (batching e1000Speedup : Bool) :
    Proxy → List (List UInt8) → Option (Proxy × List (List UInt8))
  | proxy, [] => some (proxy, [])
  | proxy, data :: rest => do
    let (proxy, sends) ← doActionSend batching e1000Speedup proxy data
    let (proxy, sends') ← doActionsSend batching e1000Speedup proxy rest
    return (proxy, sends ++ sends')

/-! ### Reassembly -/

/-- `SocketReadState`, getting a length or getting the data of a packet. -/
inductive SocketReadState where
  | length (index : ℕ) (index_lt : index < 4) (buf : Memory)
  | data (packetLen index : ℕ) (index_le : index ≤ packetLen) (buf : Memory)

/-- The read state, the packets given to `finalize`, and whether the result is 0. -/
structure Filled where
  rs : SocketReadState
  packets : List Packet
  ok : Bool

/-- The turns that a read state may still take without a byte. -/
def SocketReadState.idle : SocketReadState → ℕ
  | .length .. => 0
  | .data .. => 1

def netFillRstate (rs : SocketReadState) (bytes : List UInt8) : Filled :=
  if hsize : bytes.length = 0 then ⟨rs, [], true⟩
  else
    match rs with
    | .length index hindex buf =>
      let l := min (4 - index) bytes.length
      let buf := buf.store index (bytes.take l)
      if hgot : index + l = 4 then
        netFillRstate (.data (ntohl (buf.read 4 0)) 0 (Nat.zero_le _) buf) (bytes.drop l)
      else netFillRstate (.length (index + l) (by omega) buf) (bytes.drop l)
    | .data packetLen index hindex buf =>
      let l := min (packetLen - index) bytes.length
      if index + l ≤ NET_BUFSIZE then
        let buf := buf.store index (bytes.take l)
        if hdone : packetLen ≤ index + l then
          let rest := netFillRstate (.length 0 (by decide) buf) (bytes.drop l)
          { rest with packets := buf.read packetLen 0 :: rest.packets }
        else netFillRstate (.data packetLen (index + l) (by omega) buf) (bytes.drop l)
      else ⟨.length 0 (by decide) buf, [], false⟩
  termination_by 2 * bytes.length + rs.idle
  decreasing_by
    all_goals simp only [length_drop, SocketReadState.idle]
    all_goals omega

/-- The redirector: whether its handlers are installed, and what it passed to the next filter. -/
structure Redirector where
  rs : SocketReadState
  attached : Bool
  passed : List Packet

/-- The redirector after `net_socket_rs_init`. -/
def Redirector.init : Redirector := ⟨.length 0 (by decide) fun _ => 0, true, []⟩

def redirectorChrRead (s : Redirector) (bytes : List UInt8) : Redirector :=
  if s.attached then
    let filled := netFillRstate s.rs bytes
    ⟨filled.rs, filled.ok, s.passed ++ filled.packets⟩
  else s

def Redirector.BetweenPackets (s : Redirector) : Prop :=
  s.attached = true ∧ ∃ buf, s.rs = .length 0 (by decide) buf

/-! ### What the redirector waits for -/

theorem ntohl_htonl {n : ℕ} (h : n < 2 ^ 32) : ntohl (htonl n) = n := by
  rw [ntohl, htonl, reverse_reverse, ofBytes_bytesOf]
  exact Nat.mod_eq_of_lt h

@[simp]
theorem length_htonl (n : ℕ) : (htonl n).length = 4 := by
  rw [htonl, length_reverse, length_bytesOf]

def frames (ps : List Packet) : List UInt8 :=
  ps.flatMap fun p => htonl p.length ++ p

theorem frames_cons (p : Packet) (ps : List Packet) :
    frames (p :: ps) = htonl p.length ++ (p ++ frames ps) := by
  rw [frames, flatMap_cons, append_assoc]
  rfl

def Awaits : SocketReadState → List UInt8 → List Packet → Prop
  | .length index _ buf, stream, ps => buf.read index 0 ++ stream = frames ps
  | .data packetLen index _ buf, stream, ps => ∃ p rest, ps = p :: rest ∧
      packetLen = p.length ∧ index < packetLen ∧ buf.read index 0 ++ stream = p ++ frames rest

def Fits (ps : List Packet) : Prop := ∀ p ∈ ps, p ≠ [] ∧ p.length ≤ NET_BUFSIZE

variable {buf : Memory} {bytes stream : List UInt8} {ps : List Packet} {index l : ℕ}

theorem read_store_take (hl : l ≤ bytes.length) :
    (buf.store index (bytes.take l)).read (index + l) 0 ++ (bytes.drop l ++ stream) =
      buf.read index 0 ++ (bytes ++ stream) := by
  have hle : (bytes.take l).length = l := length_take_of_le hl
  have hr := read_store_append buf index (bytes.take l)
  rw [hle] at hr
  rw [hr, append_assoc, ← append_assoc (bytes.take l), take_append_drop]

theorem awaits_of_length (hfits : Fits ps) (h : buf.read 4 0 ++ stream = frames ps) :
    Awaits (.data (ntohl (buf.read 4 0)) 0 (Nat.zero_le _) buf) stream ps := by
  cases ps with
  | nil =>
    have hl := congrArg List.length h
    simp [frames] at hl
  | cons p rest =>
    obtain ⟨hne, hle⟩ := hfits p mem_cons_self
    rw [frames_cons] at h
    obtain ⟨hlen, hs⟩ := append_inj h (by simp)
    have hn : ntohl (buf.read 4 0) = p.length := by
      rw [hlen, ntohl_htonl (Nat.lt_of_le_of_lt hle (by decide))]
    refine ⟨p, rest, rfl, hn, ?_, hs⟩
    rw [hn]
    exact length_pos_iff.mpr hne

theorem netFillRstate_of_awaits (rs : SocketReadState) (bytes : List UInt8) (hfits : Fits ps)
    (h : Awaits rs (bytes ++ stream) ps) : (netFillRstate rs bytes).ok = true ∧ ∃ rest,
      ps = (netFillRstate rs bytes).packets ++ rest ∧
      Awaits (netFillRstate rs bytes).rs stream rest := by
  fun_induction netFillRstate rs bytes generalizing ps with
  | case1 rs bytes hsi =>
    rw [length_eq_zero_iff.mp hsi] at h
    exact ⟨rfl, ps, rfl, h⟩
  | case2 bytes hsi index hi buf l buf' hgot =>
    rename_i ih
    refine ih hfits (awaits_of_length hfits ?_)
    rw [← hgot]
    exact (read_store_take (Nat.min_le_right ..)).trans h
  | case3 bytes hsi index hi buf l buf' hgot =>
    rename_i ih
    exact ih hfits ((read_store_take (Nat.min_le_right ..)).trans h)
  | case4 bytes hsi packetLen index hi buf l hr buf' hd filled =>
    rename_i ih
    obtain ⟨p, ps, rfl, rfl, hlt, hs⟩ := h
    have hl : index + l = p.length := by omega
    have hle : l ≤ bytes.length := Nat.min_le_right ..
    have hre := (read_store_take hle).trans hs
    obtain ⟨hp, hrest⟩ := append_inj hre (by rw [length_read]; exact hl)
    have hf' : Fits ps := fun q hq => hfits q (mem_cons_of_mem _ hq)
    obtain ⟨hok, rest, hr', ha⟩ := ih hf' hrest
    refine ⟨hok, rest, ?_, ha⟩
    rw [← hl]
    exact congrArg₂ _ hp.symm hr'
  | case5 bytes hsi packetLen index hi buf l hr buf' hd =>
    rename_i ih
    obtain ⟨p, ps, rfl, hlen, -, hs⟩ := h
    exact ih hfits ⟨p, ps, rfl, hlen, Nat.lt_of_not_le hd,
      (read_store_take (Nat.min_le_right ..)).trans hs⟩
  | case6 bytes hsi packetLen index hi buf l =>
    rename_i hr
    obtain ⟨p, ps, rfl, hlen, -, -⟩ := h
    have hle := (hfits p mem_cons_self).2
    omega

theorem between_of_awaits {rs : SocketReadState} (h : Awaits rs [] ps) :
    ps = [] ∧ ∃ buf, rs = .length 0 (by decide) buf := by
  cases rs with
  | length index hi buf =>
    have hl := congrArg List.length h
    cases ps with
    | nil =>
      obtain rfl : index = 0 := by simpa [frames] using hl
      exact ⟨rfl, buf, rfl⟩
    | cons p rest =>
      rw [frames_cons] at hl
      simp only [List.append_nil, length_append, length_read, length_htonl] at hl
      omega
  | data packetLen index hi buf =>
    obtain ⟨p, rest, -, rfl, hlt, hs⟩ := h
    have hl := congrArg List.length hs
    simp only [List.append_nil, length_append, length_read] at hl
    omega

theorem redirector_of_awaits (reads : List (List UInt8)) {s : Redirector} (hs : s.attached = true)
    (hfits : Fits ps) (h : Awaits s.rs (reads.flatten ++ stream) ps) :
    (reads.foldl redirectorChrRead s).attached = true ∧ ∃ done rest, ps = done ++ rest ∧
      (reads.foldl redirectorChrRead s).passed = s.passed ++ done ∧
      Awaits (reads.foldl redirectorChrRead s).rs stream rest := by
  induction reads generalizing s ps with
  | nil => exact ⟨hs, [], ps, rfl, (List.append_nil _).symm, h⟩
  | cons bytes reads ih =>
    rw [flatten_cons, append_assoc] at h
    obtain ⟨hok, rest, hps, haw⟩ := netFillRstate_of_awaits s.rs bytes hfits h
    have hr : redirectorChrRead s bytes = ⟨(netFillRstate s.rs bytes).rs,
        (netFillRstate s.rs bytes).ok, s.passed ++ (netFillRstate s.rs bytes).packets⟩ :=
      if_pos hs
    have hf' : Fits rest := fun p hp => hfits p (hps ▸ mem_append_right _ hp)
    rw [foldl_cons]
    obtain ⟨ha, done, left, hsp, hpassed, hl⟩ :=
      ih (s := redirectorChrRead s bytes) (by rwa [hr]) hf' (by rwa [hr])
    refine ⟨ha, (netFillRstate s.rs bytes).packets ++ done, left, ?_, ?_, hl⟩
    · rw [hps, hsp, append_assoc]
    · rw [hpassed, hr, append_assoc]

theorem redirector_reassembles {reads : List (List UInt8)} {s : Redirector}
    (hs : s.BetweenPackets) (hfits : Fits ps) (h : reads.flatten = frames ps) :
    (reads.foldl redirectorChrRead s).passed = s.passed ++ ps ∧
      (reads.foldl redirectorChrRead s).BetweenPackets := by
  obtain ⟨ha, buf, hrs⟩ := hs
  have haw : Awaits s.rs (reads.flatten ++ []) ps := by
    rw [hrs, List.append_nil]
    exact h
  obtain ⟨ha', done, rest, rfl, hpassed, hrest⟩ :=
    redirector_of_awaits reads ha hfits haw
  obtain ⟨rfl, hb⟩ := between_of_awaits hrest
  exact ⟨by rw [hpassed, List.append_nil], ha', hb⟩

/-! ### From the batch to the stream -/

theorem slice_append (front : List UInt8) {body rest : List UInt8} {offset n : ℕ}
    (ho : front.length = offset) (hn : body.length = n) :
    slice (front ++ (body ++ rest)) offset n = some body := by
  subst ho hn
  unfold slice
  rw [if_pos (by simp only [length_append]; omega), drop_left, take_left]

theorem length_lengthTable (iovs : List Packet) :
    (iovs.flatMap fun iov => bytesOf 8 iov.length).length = iovs.length * 8 := by
  simp [length_flatMap, map_const']

theorem length_encodeBatch (iovs : List Packet) :
    (encodeBatch iovs).length = (iovs.length + 1) * 8 + iovs.flatten.length := by
  rw [encodeBatch, batchHeader, length_append, length_append, length_bytesOf,
    length_lengthTable]
  omega

theorem lengthTable_entry (iovs : List Packet) (hlen : ∀ iov ∈ iovs, iov.length < 256 ^ 8) :
    ((range iovs.length).map fun i => ofBytes
      (((iovs.flatMap fun iov => bytesOf 8 iov.length).drop (i * 8)).take 8)) =
      iovs.map List.length := by
  induction iovs with
  | nil => rfl
  | cons iov iovs ih =>
    rw [length_cons, range_succ_eq_map, map_cons, List.map_map, map_cons,
      flatMap_cons]
    have hh : (bytesOf 8 iov.length).length = 8 := length_bytesOf ..
    apply cons_eq_cons.mpr
    constructor
    · rw [Nat.zero_mul, drop_zero, take_left' hh, ofBytes_bytesOf]
      exact Nat.mod_eq_of_lt (hlen iov mem_cons_self)
    · rw [← ih fun q hq => hlen q (mem_cons_of_mem _ hq)]
      refine map_congr_left fun i _ => ?_
      rw [Function.comp_apply, Nat.succ_mul, Nat.add_comm, ← drop_drop, drop_left' hh]

theorem sendPackets_packets (front rest : List UInt8) (iovs : List Packet) {offset : ℕ}
    (ho : front.length = offset) :
    ∃ sends, sendPackets (front ++ (iovs.flatten ++ rest)) (iovs.map List.length) offset =
      some sends ∧ sends.flatten = frames iovs := by
  induction iovs generalizing front offset with
  | nil => exact ⟨[], rfl, rfl⟩
  | cons iov iovs ih =>
    have hn : (front ++ iov).length = offset + iov.length := by
      rw [length_append, ho]
    obtain ⟨sends, hs, hf⟩ := ih (front ++ iov) hn
    rw [flatten_cons, append_assoc, map_cons]
    rw [append_assoc] at hs
    refine ⟨htonl iov.length :: iov :: sends, ?_, ?_⟩
    · simp only [sendPackets, slice_append front ho rfl, hs]
      rfl
    · rw [flatten_cons, flatten_cons, hf, frames_cons]

theorem sendBatch_encodeBatch (iovs : List Packet) (hlen : (encodeBatch iovs).length < 65536) :
    ∃ sends, sendBatch (encodeBatch iovs) = some sends ∧ sends.flatten = frames iovs := by
  rw [length_encodeBatch] at hlen
  have hc : ofBytes (bytesOf 8 iovs.length) = iovs.length := by
    rw [ofBytes_bytesOf]
    exact Nat.mod_eq_of_lt (by omega)
  have hiov : ∀ iov ∈ iovs, iov.length < 256 ^ 8 := fun iov hiov => by
    have := (sublist_flatten_of_mem hiov).length_le
    omega
  have hn : slice (encodeBatch iovs) 0 8 = some (bytesOf 8 iovs.length) := by
    rw [encodeBatch, batchHeader, append_assoc]
    exact slice_append [] rfl (length_bytesOf ..)
  have ht : slice (encodeBatch iovs) 8 (iovs.length * 8) =
      some (iovs.flatMap fun iov => bytesOf 8 iov.length) := by
    rw [encodeBatch, batchHeader, append_assoc]
    exact slice_append _ (length_bytesOf ..) (length_lengthTable iovs)
  have hh : (batchHeader iovs).length = (iovs.length + 1) * 8 := by
    rw [batchHeader, length_append, length_bytesOf, length_lengthTable]
    omega
  obtain ⟨sends, hs, hf⟩ := sendPackets_packets _ [] iovs hh
  rw [List.append_nil] at hs
  refine ⟨sends, ?_, hf⟩
  unfold sendBatch
  rw [hn]
  dsimp only [bind_eq_bind, bind_some]
  rw [hc, ht]
  dsimp only [bind_some]
  rw [lengthTable_entry iovs hiov]
  exact hs

theorem doActionsSend_single (proxy : Proxy) (e1000Speedup : Bool) (iovs : List Packet) :
    ∃ proxy' sends, doActionsSend false e1000Speedup proxy iovs = some (proxy', sends) ∧
      sends.flatten = frames iovs := by
  induction iovs generalizing proxy with
  | nil => exact ⟨proxy, [], rfl, rfl⟩
  | cons iov iovs ih =>
    obtain ⟨proxy', sends, hs, hf⟩ := ih { proxy with syncReqId := proxy.syncReqId + 1 }
    refine ⟨proxy', [htonl iov.length, iov] ++ sends, ?_, ?_⟩
    · rw [doActionsSend, doActionSend, Bool.false_and, if_neg (by decide)]
      dsimp only [map_some, bind_eq_bind, bind_some]
      rw [hs]
      rfl
    · rw [flatten_append, hf, frames_cons]
      simp

theorem tailqCmd_of_lt {data : List UInt8} (h : data.length < 2 ^ 16) :
    (tailqCmd data).cmd = data := by
  simp only [tailqCmd, Nat.mod_eq_of_lt h, take_length]

/-- A batch reaches the redirector of a backup as the packets it was made of, however the socket
cuts the stream, and the stream is that of the packets submitted one by one. -/
theorem batch_reaches_redirector (iovs : List Packet) (hne : ∀ iov ∈ iovs, iov ≠ [])
    (hlen : (encodeBatch iovs).length < 65536) (proxy : Proxy) (s : Redirector)
    (hs : s.BetweenPackets) : ∃ sends proxy' sends',
      doActionSend true true proxy (tailqCmd (encodeBatch iovs)).cmd =
        some ({ proxy with syncReqId := proxy.syncReqId + 1 }, sends) ∧
      doActionsSend false true proxy (iovs.map fun iov => (tailqCmd iov).cmd) =
        some (proxy', sends') ∧ sends.flatten = sends'.flatten ∧
      ∀ reads : List (List UInt8), reads.flatten = sends.flatten →
        (reads.foldl redirectorChrRead s).passed = s.passed ++ iovs ∧
          (reads.foldl redirectorChrRead s).BetweenPackets := by
  have hiov : ∀ iov ∈ iovs, iov.length < 65536 := fun iov hiov => by
    have := (sublist_flatten_of_mem hiov).length_le
    rw [length_encodeBatch] at hlen
    omega
  have hfits : Fits iovs := fun iov hmem =>
    ⟨hne iov hmem, Nat.le_trans (Nat.le_of_lt (hiov iov hmem)) (by decide)⟩
  have hsingle : (iovs.map fun iov => (tailqCmd iov).cmd) = iovs := by
    refine (map_congr_left fun iov hmem => ?_).trans (List.map_id iovs)
    exact tailqCmd_of_lt (hiov iov hmem)
  obtain ⟨sends, hsends, hflat⟩ := sendBatch_encodeBatch iovs hlen
  obtain ⟨proxy', sends', hsends', hflat'⟩ := doActionsSend_single proxy true iovs
  refine ⟨sends, proxy', sends', ?_, ?_, hflat.trans hflat'.symm, fun reads hreads => ?_⟩
  · rw [tailqCmd_of_lt hlen, doActionSend, Bool.true_and, if_pos rfl, hsends, map_some]
  · rwa [hsingle]
  · exact redirector_reassembles hs hfits (hreads.trans hflat)

/-- Two packets, and a socket that may cut their stream anywhere. -/
theorem two_packets_reach_redirector :
    ∃ sends, doActionSend true true ⟨0, 0, 0, []⟩ (tailqCmd (encodeBatch [[1, 2], [3]])).cmd =
        some (⟨0, 0, 1, []⟩, sends) ∧ ∀ reads : List (List UInt8), reads.flatten = sends.flatten →
        (reads.foldl redirectorChrRead .init).passed = [[1, 2], [3]] := by
  obtain ⟨sends, _, _, hsends, -, -, hpassed⟩ := batch_reaches_redirector [[1, 2], [3]]
    (by decide) (by decide) ⟨0, 0, 0, []⟩ .init ⟨rfl, _, rfl⟩
  exact ⟨sends, hsends, fun reads hreads => (hpassed reads hreads).1⟩

end VmFt.Net
