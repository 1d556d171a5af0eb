import Megalo.Http.Dump
import Megalo.Stream.FixSize

/-!
# `HttpServer::handleClient`

- `Request.init` sets `m_close` from the `connection` header;
- `sendResponse` writes the dump, and reports faithfully below `2 ^ 31` bytes (`sendResponse_faithful`); `handleClient`
  does not look at what it returns;
- `handleClient` is the loop over what `recvRequest` returns, as the list of what it does with the connection; what a
  servlet does to a response is arbitrary, and may depend on the request and on how many came before it;
- `CloseAgrees`: the connection is closed right behind the first response that is marked `close`, and a request is only
  read behind one that is not. `handleClient_closeAgrees`: that is so exactly when the server does not keep connections
  alive, or every response that the servlets leave is marked `keep-alive`.
-/

namespace Megalo

/-! ## Requests and responses -/

/-- `m_headers.find(key)`. -/
def HeaderMap.find (headers : HeaderMap) (key : List UInt8) : Option (List UInt8) :=
  (headers.find? fun h => !caseInsensitiveLess h.1 key && !caseInsensitiveLess key h.1).map Prod.snd

/-- `getHeader`. -/
def HttpMessage.getHeader (m : HttpMessage) (key default : List UInt8) : List UInt8 :=
  (m.headers.find key).getD default

/-- `HttpRequest::init`. -/
def Request.init (req : Request) : Request :=
  let conn := req.getHeader (bytes "connection") []
  if conn ≠ [] then { req with close := !strcasecmpEq conn (bytes "keep-alive") } else req

/-- The request that `recvRequest` returns: what the parser set in a `new HttpRequest`, the body, and `init`. -/
def Request.received (data : HttpRequest) (body : List UInt8) : Request :=
  Request.init
    { version := data.version, close := true, websocket := false, body, headers := data.headers, method := data.method,
      path := data.path, query := data.query, fragment := data.fragment }

/-- `HttpResponse(version, close)`. -/
def Response.new (version : UInt8) (close : Bool) : Response :=
  { version, close, websocket := false, body := [], headers := [], status := 200, reason := [], cookies := [] }

/-- `HttpSession::sendResponse`; the `k`-th call of `write` returns `results k`. -/
def sendResponse (results : ℕ → Int32) (rsp : Response) : Stream.Run :=
  Stream.writeFixSize results (.ofNat rsp.dump.length)

/-- The result is positive exactly when all of the dump was written. -/
theorem sendResponse_faithful (results : ℕ → Int32) {rsp : Response} (h : rsp.dump.length < 2 ^ 31) :
    (sendResponse results rsp).Faithful (.ofNat rsp.dump.length) := by
  have hpos : 0 < rsp.dump.length := by
    simp only [Response.dump, List.length_append]
    have hcrlf : crlf.length = 2 := rfl
    omega
  have hsize : rsp.dump.length < UInt64.size := Nat.lt_trans h (by decide)
  have hlength : (UInt64.ofNat rsp.dump.length).toNat = rsp.dump.length := UInt64.toNat_ofNat_of_lt' hsize
  refine (Stream.fixSize_faithful_iff .write results _).mpr ⟨by omega, .inl ?_⟩
  rw [hlength, Nat.mod_eq_of_lt (by omega)]
  exact ⟨hpos, h⟩

/-! ## The loop -/

/-- What the loop does with the connection; a `recvRequest` that fails returns null. -/
inductive ServerEvent
  | recv (req : Option Request)
  | send (rsp : Response)
  | close

variable (keepalive : Bool) (servlet : Nat → Request → Response → Response)

/-- The response to the `n`-th request, as the servlet leaves it. -/
def answer (n : Nat) (req : Request) : Response := servlet n req (.new req.version (req.close || !keepalive))

/-- `HttpServer::handleClient`, from the `n`-th request on. -/
def handleClient : Nat → List Request → List ServerEvent
  | _, [] => [.recv none, .close]
  | n, req :: reqs =>
    .recv (some req) :: .send (answer keepalive servlet n req) ::
      if keepalive then handleClient (n + 1) reqs else [.close]

/-- The connection is closed right behind the first response that is marked `close`, and a request is only read behind
a response that is not. -/
structure CloseAgrees (events : List ServerEvent) : Prop where
  closes : ∀ before rsp after, events = before ++ .send rsp :: after → rsp.close = true →
    (∀ r, .send r ∈ before → r.close = false) → after.head? = some .close
  reads : ∀ before e req after, events = before ++ e :: .recv req :: after → ∃ rsp, e = .send rsp ∧ rsp.close = false

variable {keepalive servlet} {reqs : List Request} {req : Request} {n i : Nat}

/-- A loop that keeps connections alive reads on behind every response. -/
theorem handleClient_reads : ∀ {reqs : List Request} {n i : Nat} {req : Request}, reqs[i]? = some req →
    ∃ before next after, handleClient true servlet n reqs =
      before ++ .send (answer true servlet (n + i) req) :: .recv next :: after
  | [], _, i, _, h => by simp at h
  | r :: reqs, n, 0, req, h => by
    obtain rfl : r = req := by simpa using h
    cases reqs with
    | nil => exact ⟨[.recv (some r)], none, [.close], rfl⟩
    | cons r' reqs => exact ⟨[.recv (some r)], some r', _, rfl⟩
  | r :: reqs, n, i + 1, req, h => by
    have hi : reqs[i]? = some req := by simpa using h
    obtain ⟨before, next, after, hb⟩ := handleClient_reads (n := n + 1) hi
    refine ⟨.recv (some r) :: .send (answer true servlet n r) :: before, next, after, ?_⟩
    rw [handleClient, if_pos rfl, hb, show n + 1 + i = n + (i + 1) by omega]
    rfl

/-- Every response is that to one of the requests. -/
theorem send_mem_handleClient {reqs : List Request} {n : Nat} {rsp : Response}
    (h : .send rsp ∈ handleClient true servlet n reqs) :
    ∃ i req, reqs[i]? = some req ∧ rsp = answer true servlet (n + i) req := by
  induction reqs generalizing n with
  | nil => simp [handleClient] at h
  | cons r reqs ih =>
    rw [handleClient, if_pos rfl] at h
    rcases List.mem_cons.mp h with h | h
    · cases h
    · rcases List.mem_cons.mp h with h | h
      · cases h
        exact ⟨0, r, rfl, rfl⟩
      · obtain ⟨i, req, hi, rfl⟩ := ih h
        exact ⟨i + 1, req, by simpa using hi, by rw [show n + 1 + i = n + (i + 1) by omega]⟩

/-- Where something comes before a read, it is a response. -/
theorem handleClient_before {reqs : List Request} {n : Nat} {before after : List ServerEvent} {e : ServerEvent}
    {next : Option Request} (h : handleClient true servlet n reqs = before ++ e :: .recv next :: after) :
    ∃ rsp, e = .send rsp ∧ .send rsp ∈ handleClient true servlet n reqs := by
  induction reqs generalizing n before with
  | nil => rcases before with _ | ⟨b, _ | ⟨b', before⟩⟩ <;> simp [handleClient] at h
  | cons r reqs ih =>
    rw [handleClient, if_pos rfl] at h ⊢
    rcases before with _ | ⟨b, _ | ⟨b', before⟩⟩
    · simp at h
    · simp only [List.cons_append, List.nil_append, List.cons.injEq] at h
      obtain ⟨-, rfl, -⟩ := h
      exact ⟨_, rfl, List.mem_cons_of_mem _ List.mem_cons_self⟩
    · simp only [List.cons_append, List.cons.injEq] at h
      obtain ⟨-, -, h⟩ := h
      obtain ⟨rsp, rfl, hmem⟩ := ih h
      exact ⟨rsp, rfl, List.mem_cons_of_mem _ (List.mem_cons_of_mem _ hmem)⟩

/-- A loop that does not keep connections alive closes after at most one response. -/
theorem handleClient_once : CloseAgrees (handleClient false servlet n reqs) := by
  cases reqs with
  | nil =>
    constructor
    · intro before rsp after h
      rcases before with _ | ⟨b, _ | ⟨b', before⟩⟩ <;> simp [handleClient] at h
    · intro before e next after h
      rcases before with _ | ⟨b, _ | ⟨b', before⟩⟩ <;> simp [handleClient] at h
  | cons r reqs =>
    constructor
    · intro before rsp after h _ _
      rcases before with _ | ⟨b, _ | ⟨b', _ | ⟨b'', before⟩⟩⟩ <;> simp [handleClient] at h
      rw [← h.2.2]
      rfl
    · intro before e next after h
      rcases before with _ | ⟨b, _ | ⟨b', _ | ⟨b'', before⟩⟩⟩ <;> simp [handleClient] at h

/-- **Closing a connection.** For every setting, all requests and every behaviour of the servlets, the connection is
closed and read as its responses announce exactly when the server does not keep connections alive, or no response is
marked `close`. -/
theorem handleClient_closeAgrees (keepalive : Bool) (servlet : Nat → Request → Response → Response)
    (reqs : List Request) : CloseAgrees (handleClient keepalive servlet 0 reqs) ↔
      keepalive = false ∨ ∀ i req, reqs[i]? = some req →
        (servlet i req (.new req.version (req.close || !keepalive))).close = false := by
  cases keepalive with
  | false => exact ⟨fun _ => .inl rfl, fun _ => handleClient_once⟩
  | true =>
    constructor
    · intro h
      refine .inr fun i req hi => ?_
      obtain ⟨before, next, after, hb⟩ := @handleClient_reads servlet _ 0 _ _ hi
      obtain ⟨rsp, hrsp, hclose⟩ := h.reads _ _ _ _ hb
      cases hrsp
      rwa [Nat.zero_add] at hclose
    · rintro (h | h)
      · cases h
      have hsend : ∀ rsp, .send rsp ∈ handleClient true servlet 0 reqs → rsp.close = false := by
        intro rsp hmem
        obtain ⟨i, req, hi, rfl⟩ := send_mem_handleClient hmem
        rw [Nat.zero_add]
        exact h i req hi
      constructor
      · intro before rsp after hb hclose _
        have hmem : .send rsp ∈ handleClient true servlet 0 reqs := by
          rw [hb]
          exact List.mem_append_right _ List.mem_cons_self
        rw [hsend rsp hmem] at hclose
        cases hclose
      · intro before e next after hb
        obtain ⟨rsp, rfl, hmem⟩ := handleClient_before hb
        exact ⟨rsp, rfl, hsend rsp hmem⟩

/-- A server that keeps connections alive answers a request without a `connection` header with `connection: close`, and
reads on. -/
theorem handleClient_reads_on :
    (answer true (fun _ _ rsp => rsp) 0 (.received .new [])).close = true ∧
      ¬ CloseAgrees (handleClient true (fun _ _ rsp => rsp) 0 [.received .new []]) := by
  have hclose : (answer true (fun _ _ rsp => rsp) 0 (.received .new [])).close = true := rfl
  refine ⟨hclose, fun h => ?_⟩
  obtain ⟨rsp, hrsp, hkeep⟩ := h.reads [.recv (some (.received .new []))] _ none [.close] rfl
  cases hrsp
  rw [hclose] at hkeep
  cases hkeep

end Megalo
