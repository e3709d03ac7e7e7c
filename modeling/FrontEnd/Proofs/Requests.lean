import FrontEnd.Proofs.Window

/-!
# One stream for all who ask

A lexer is asked for its tokens in four ways: for the next one, for the next one before the end of
input, for the place of one that is wanted, and for all of them. Whatever it is asked, it reads
tokens one at a time and gives none back, so that all requests share one stream: each goes on where
the one before it stopped. A request that comes to the end of input reads it once. From then on
there is nothing but the end of input, and the cursor stays where the source ends.

* `Request`, `Reply` — what a lexer is asked, and what it answers.
* `Request.CompletedBy` — the tokens that a request takes, no fewer and no more, and its reply.
* `Request.answer?`, `Lexer.answerAll?` — what the functions of the lexer make of a request, and of
  requests one after another.
* `Exchange` — requests that are served one after another, token by token.

Principal results: `Request.exists_answer?` (the functions read what completes the request),
`Exchange.unique` (in one way), `Exchange.drawn_eq` (no token is lost or read twice) and
`requests_share_stream`.
-/

namespace FrontEnd

open TokenStream

/-! ## Requests -/

/-- What a lexer can be asked for. -/
inductive Request where
  /-- The next token, be it the end of input. -/
  | next
  /-- The next token before the end of input. -/
  | pull
  /-- The place of the first token that is wanted. -/
  | find (wanted : Token → Bool)
  /-- All tokens before the end of input. -/
  | collect

/-- What a lexer answers. -/
inductive Reply where
  | next (token : Token)
  | pulled (token : Option Token)
  | place (index : Option Nat)
  | collected (tokens : List Token)
  deriving DecidableEq, Repr

/-- The reply tells that the end of input was read. -/
def Reply.isEnd : Reply → Bool
  | next token => token.kind = .eof
  | pulled token => token.isNone
  | place index => index.isNone
  | collected _ => true

namespace Request

/-- Whether a request reads no further than the token. -/
def stopsAt (request : Request) (t : Token) : Bool :=
  match request with
  | next => true
  | pull => true
  | find wanted => t.kind = .eof || wanted t
  | collect => t.kind = .eof

/-- The reply to a request for which the tokens `before` were read, and then the token `t`. -/
def reply (request : Request) (before : List Token) (t : Token) : Reply :=
  match request with
  | next => .next t
  | pull => .pulled (if t.kind = .eof then none else some t)
  | find _ => .place (if t.kind = .eof then none else some before.length)
  | collect => .collected before

/-- The request stops at the last of the tokens, and at none before it. -/
inductive CompletedBy (request : Request) : List Token → Reply → Prop where
  | intro {before : List Token} {t : Token} (hbefore : ∀ u ∈ before, request.stopsAt u = false)
    (ht : request.stopsAt t = true) :
    CompletedBy request (before ++ [t]) (request.reply before t)

/-- The reply of a lexer that has nothing left but the end of input, which stands at `stop`. -/
def replyAtEnd (stop : Position) : Request → Reply
  | next => .next (.endOfInput stop)
  | pull => .pulled none
  | find _ => .place none
  | collect => .collected []

/-- What the functions of the lexer make of a request. -/
def answer? (request : Request) (l : Lexer) : Option (Reply × Lexer) :=
  match request with
  | next => l.next?.map fun (token, l) => (.next token, l)
  | pull => l.pull?.map fun (token, l) => (.pulled token, l)
  | find wanted => (l.findWhere? wanted).map fun (index, l) => (.place index, l)
  | collect => l.collect?.map fun (tokens, l) => (.collected tokens, l)

end Request

/-- The replies to requests made one after another. -/
def Lexer.answerAll? (l : Lexer) : List Request → Option (List Reply × Lexer)
  | [] => some ([], l)
  | request :: requests =>
    match request.answer? l with
    | some (reply, l) => (l.answerAll? requests).map fun (replies, l) => (reply :: replies, l)
    | none => none

/-! ## The functions read what completes a request -/

namespace Lexer

variable {l m n : Lexer} {ts us : List Token}

theorem next?_of_cut (hcut : l.cut = 0) : l.next? = some l.scan := if_pos hcut

theorem scan_cut (hcut : l.cut = 0) : l.scan.2.cut = 0 := l.scan_split.2.1.trans hcut

/-- What is read first, by a cursor that stands in no character. -/
theorem Pulls.scan (hcut : l.cut = 0) (h : Pulls l.scan.2 ts m) : Pulls l (l.scan.1 :: ts) m :=
  .cons (next?_of_cut hcut) h

theorem Pulls.one (hcut : l.cut = 0) : Pulls l [l.scan.1] l.scan.2 := .scan hcut (.nil _)

/-- A search reads unwanted tokens, and then one that is wanted or the end of input. -/
theorem find_pulls (hcut : l.cut = 0) (wanted : Token → Bool) (index : Nat) :
    ∃ before t, Pulls l (before ++ [t]) (l.find wanted index).2 ∧
      (∀ u ∈ before, (Request.find wanted).stopsAt u = false) ∧
      (Request.find wanted).stopsAt t = true ∧
      (l.find wanted index).1 = if t.kind = .eof then none else some (index + before.length) := by
  fun_induction find l wanted index with
  | case1 l index heof =>
    refine ⟨[], _, .one hcut, by simp, ?_, (if_pos heof).symm⟩
    rw [Request.stopsAt, heof]
    rfl
  | case2 l index hkind hwanted =>
    refine ⟨[], _, .one hcut, by simp, ?_, (if_neg hkind).symm⟩
    rw [Request.stopsAt, hwanted, Bool.or_true]
  | case3 l index hkind hwanted ih =>
    obtain ⟨before, t, hpulls, hbefore, ht, hreply⟩ := ih (scan_cut hcut)
    have hfirst : (Request.find wanted).stopsAt l.scan.1 = false :=
      Bool.or_eq_false_iff.2 ⟨decide_eq_false hkind, Bool.eq_false_iff.2 hwanted⟩
    refine ⟨l.scan.1 :: before, t, .scan hcut hpulls, List.forall_mem_cons.2 ⟨hfirst, hbefore⟩, ht,
      ?_⟩
    rwa [List.length_cons, Nat.add_comm before.length, ← Nat.add_assoc]

/-- Collecting reads all tokens before the end of input, and the end of input. -/
theorem collect_pulls (hcut : l.cut = 0) (read : Array Token) :
    ∃ before t, Pulls l (before ++ [t]) (l.collect read).2 ∧
      (∀ u ∈ before, Request.collect.stopsAt u = false) ∧ Request.collect.stopsAt t = true ∧
      (l.collect read).1.toList = read.toList ++ before := by
  fun_induction collect l read with
  | case1 l read heof => exact ⟨[], _, .one hcut, by simp, decide_eq_true heof, by simp⟩
  | case2 l read hkind ih =>
    obtain ⟨before, t, hpulls, hbefore, ht, hread⟩ := ih (scan_cut hcut)
    refine ⟨l.scan.1 :: before, t, .scan hcut hpulls,
      List.forall_mem_cons.2 ⟨decide_eq_false hkind, hbefore⟩, ht, ?_⟩
    rw [hread, Array.toList_push, List.append_assoc]
    rfl

end Lexer

/-- **What a lexer does with a request**: it answers, and has read what completes the request. -/
theorem Request.exists_answer? {l : Lexer} (hcut : l.cut = 0) (request : Request) :
    ∃ ts reply m, request.answer? l = some (reply, m) ∧ l.Pulls ts m ∧
      request.CompletedBy ts reply := by
  have hone : ∀ request : Request, (∀ t, request.stopsAt t = true) →
      request.CompletedBy [l.scan.1] (request.reply [] l.scan.1) :=
    fun request h => .intro (List.forall_mem_nil _) (h _)
  cases request with
  | next =>
    refine ⟨_, _, l.scan.2, ?_, .one hcut, hone .next fun _ => rfl⟩
    rw [answer?, Lexer.next?_of_cut hcut]
    rfl
  | pull =>
    refine ⟨_, _, l.scan.2, ?_, .one hcut, hone .pull fun _ => rfl⟩
    rw [answer?, Lexer.pull?, Lexer.next?_of_cut hcut]
    rfl
  | find wanted =>
    obtain ⟨before, t, hpulls, hbefore, ht, hindex⟩ := Lexer.find_pulls hcut wanted 0
    refine ⟨_, _, _, ?_, hpulls, .intro hbefore ht⟩
    rw [Nat.zero_add] at hindex
    rw [answer?, Lexer.findWhere?, if_pos hcut, reply, ← hindex]
    rfl
  | collect =>
    obtain ⟨before, t, hpulls, hbefore, ht, hread⟩ := Lexer.collect_pulls hcut #[]
    refine ⟨_, _, _, ?_, hpulls, .intro hbefore ht⟩
    rw [answer?, Lexer.collect?, if_pos hcut, reply]
    rw [List.nil_append] at hread
    rw [← hread]
    rfl

/-! ## In one way -/

theorem Request.stopsAt_eof (request : Request) {t : Token} (ht : t.kind = .eof) :
    request.stopsAt t = true := by
  cases request <;> simp [stopsAt, ht]

/-- Which replies tell of the end of input. -/
theorem Request.isEnd_reply (request : Request) (before : List Token) {t : Token}
    (ht : request.stopsAt t = true) :
    (request.reply before t).isEnd = true ↔ t.kind = .eof := by
  cases request with
  | next => exact decide_eq_true_iff
  | pull | find =>
    by_cases heof : t.kind = .eof <;> simp [reply, Reply.isEnd, heof]
  | collect => exact iff_of_true rfl (of_decide_eq_true ht)

namespace Request.CompletedBy

variable {request : Request} {ts us : List Token} {reply reply' : Reply}

/-- A request takes no more tokens than complete it, and has one reply to them. -/
theorem unique (h : request.CompletedBy ts reply) (h' : request.CompletedBy us reply')
    (hbeginning : ts <+: us) : ts = us ∧ reply = reply' := by
  obtain ⟨hbefore, ht⟩ := h
  obtain ⟨hbefore', ht'⟩ := h'
  rename_i before t before' t'
  rcases List.prefix_concat_iff.1 hbeginning with heq | hbeginning
  · obtain ⟨rfl, htt'⟩ := List.append_inj' heq rfl
    obtain rfl := List.singleton_inj.1 htt'
    exact ⟨rfl, rfl⟩
  · have hmem : t ∈ before' := hbeginning.subset (List.mem_append_right _ List.mem_cons_self)
    rw [hbefore' t hmem] at ht
    cases ht

/-- A reply tells of the end of input if that was the last token read. It was read once. -/
theorem exists_end (h : request.CompletedBy ts reply) (hend : reply.isEnd = true) :
    ∃ before t, ts = before ++ [t] ∧ (∀ u ∈ before, u.kind ≠ .eof) ∧ t.kind = .eof := by
  obtain ⟨hbefore, ht⟩ := h
  refine ⟨_, _, rfl, fun u hu heof => ?_, (request.isEnd_reply _ ht).1 hend⟩
  have hstops := request.stopsAt_eof heof
  rw [hbefore u hu] at hstops
  cases hstops

/-- What completes a request if there is nothing but the end of input. -/
theorem at_end {stop : Position} (h : request.CompletedBy ts reply)
    (hall : ∀ t ∈ ts, t = .endOfInput stop) :
    ts = [.endOfInput stop] ∧ reply = request.replyAtEnd stop := by
  obtain ⟨hbefore, ht⟩ := h
  rename_i before t
  obtain ⟨hinit, hlast⟩ := List.forall_mem_append.1 hall
  obtain rfl := List.forall_mem_singleton.1 hlast
  have hnil : before = [] := by
    refine List.eq_nil_iff_forall_not_mem.2 fun u hu => ?_
    have hstops := hbefore u hu
    rw [hinit u hu, request.stopsAt_eof rfl] at hstops
    cases hstops
  subst hnil
  exact ⟨rfl, by cases request <;> rfl⟩

end Request.CompletedBy

namespace Lexer

variable {l m n : Lexer} {ts us : List Token} {k : Nat}

/-- What a cursor reads, by the number of the tokens that were read before. -/
theorem Pulls.eq_tokens (hcut : l.cut = 0) (h : Pulls (l.pulled k) ts m) :
    ts = (List.range' k ts.length).map l.stream.token ∧ m = l.pulled (k + ts.length) := by
  induction ts generalizing k with
  | nil =>
    cases h
    exact ⟨rfl, rfl⟩
  | cons t ts ih =>
    cases h with
    | cons hnext hs =>
      rw [next?_pulled hcut] at hnext
      obtain ⟨rfl, rfl⟩ := Prod.mk.inj (Option.some.inj hnext)
      obtain ⟨hts, hm⟩ := ih hs
      rw [List.length_cons, List.range'_succ, List.map_cons, ← hts, hm, Nat.add_assoc,
        Nat.add_comm 1]
      exact ⟨rfl, rfl⟩

/-- Of two readings from one cursor, one is the beginning of the other. -/
theorem Pulls.prefix_or (hcut : l.cut = 0) (h : Pulls (l.pulled k) ts m)
    (h' : Pulls (l.pulled k) us n) : ts <+: us ∨ us <+: ts := by
  have hbeginning : ∀ a b : Nat, a ≤ b →
      (List.range' k a).map l.stream.token <+: (List.range' k b).map l.stream.token := by
    intro a b hab
    rw [← Nat.add_sub_cancel' hab, ← List.range'_append_1, List.map_append]
    exact List.prefix_append _ _
  rw [(h.eq_tokens hcut).1, (h'.eq_tokens hcut).1]
  exact (Nat.le_total ts.length us.length).imp (hbeginning _ _) (hbeginning _ _)

end Lexer

/-! ## Requests one after another -/

/-- A request that was served: the tokens that were read for it, and the reply. -/
structure Served where
  request : Request
  drawn : List Token
  reply : Reply

/-- Requests that a cursor serves one after another. -/
inductive Exchange : Lexer → List Served → Lexer → Prop where
  | nil (l : Lexer) : Exchange l [] l
  | cons {l m n : Lexer} {x : Served} {xs : List Served} (hpulls : l.Pulls x.drawn m)
    (hreply : x.request.CompletedBy x.drawn x.reply) (h : Exchange m xs n) :
    Exchange l (x :: xs) n

namespace Exchange

variable {l m n : Lexer} {xs ys : List Served} {k : Nat}

/-- **Every request is served**, and the functions of the lexer make the same of it. -/
theorem exists_served (hcut : l.cut = 0) (requests : List Request) :
    ∃ xs m, Exchange (l.pulled k) xs m ∧ xs.map Served.request = requests ∧
      (l.pulled k).answerAll? requests = some (xs.map Served.reply, m) := by
  induction requests generalizing k with
  | nil => exact ⟨[], l.pulled k, .nil _, rfl, rfl⟩
  | cons request requests ih =>
    obtain ⟨ts, reply, m, hanswer, hpulls, hreply⟩ :=
      request.exists_answer? ((l.pulled_split k).1.trans hcut)
    obtain ⟨-, rfl⟩ := hpulls.eq_tokens hcut
    obtain ⟨xs, n, hxs, hrequests, hreplies⟩ := @ih (k + ts.length)
    refine ⟨⟨request, ts, reply⟩ :: xs, n, .cons hpulls hreply hxs,
      by rw [List.map_cons, hrequests], ?_⟩
    simp only [Lexer.answerAll?, hanswer, hreplies, Option.map_some, List.map_cons]

/-- Requests are served in one way. -/
theorem unique (hcut : l.cut = 0) (h : Exchange (l.pulled k) xs m)
    (h' : Exchange (l.pulled k) ys n) (hrequests : ys.map Served.request = xs.map Served.request) :
    ys = xs ∧ n = m := by
  induction xs generalizing k ys with
  | nil =>
    obtain rfl := List.map_eq_nil_iff.1 hrequests
    cases h
    cases h'
    exact ⟨rfl, rfl⟩
  | cons x xs ih =>
    obtain ⟨y, ys, rfl, hrequest, hrequests⟩ := List.map_eq_cons_iff.1 hrequests
    cases h with
    | cons hpulls hreply h =>
      cases h' with
      | cons hpulls' hreply' h' =>
        rw [hrequest] at hreply'
        obtain ⟨hdrawn, hreply⟩ : y.drawn = x.drawn ∧ y.reply = x.reply := by
          rcases hpulls.prefix_or hcut hpulls' with hle | hle
          · obtain ⟨hdrawn, hreply⟩ := hreply.unique hreply' hle
            exact ⟨hdrawn.symm, hreply.symm⟩
          · exact hreply'.unique hreply hle
        obtain ⟨-, rfl⟩ := hpulls.eq_tokens hcut
        obtain ⟨-, rfl⟩ := hpulls'.eq_tokens hcut
        rw [hdrawn] at h'
        obtain ⟨rfl, rfl⟩ := ih h h' hrequests
        obtain ⟨request, drawn, reply⟩ := y
        obtain rfl : request = x.request := hrequest
        obtain rfl : drawn = x.drawn := hdrawn
        obtain rfl : reply = x.reply := hreply
        exact ⟨rfl, rfl⟩

/-- **One stream**: what is read for the requests are the tokens of the source from where the cursor
stands, each once. -/
theorem drawn_eq (hcut : l.cut = 0) (h : Exchange (l.pulled k) xs m) :
    xs.flatMap Served.drawn =
        (List.range' k (xs.flatMap Served.drawn).length).map l.stream.token ∧
      m = l.pulled (k + (xs.flatMap Served.drawn).length) := by
  induction xs generalizing k with
  | nil =>
    cases h
    exact ⟨rfl, rfl⟩
  | cons x xs ih =>
    cases h with
    | cons hpulls _ h =>
      obtain ⟨hdrawn, rfl⟩ := hpulls.eq_tokens hcut
      obtain ⟨hrest, hm⟩ := ih h
      rw [List.flatMap_cons, List.length_append, ← List.range'_append_1, List.map_append, ← hdrawn,
        ← hrest, hm, Nat.add_assoc]
      exact ⟨rfl, rfl⟩

theorem split (h : Exchange l (xs ++ ys) n) : ∃ m, Exchange l xs m ∧ Exchange m ys n := by
  induction xs generalizing l with
  | nil => exact ⟨l, .nil l, h⟩
  | cons x xs ih =>
    cases h with
    | cons hpulls hreply h =>
      obtain ⟨m, hxs, hys⟩ := ih h
      exact ⟨m, .cons hpulls hreply hxs, hys⟩

/-- Every request is completed by what was read for it. -/
theorem completedBy (h : Exchange l xs m) {x : Served} (hx : x ∈ xs) :
    x.request.CompletedBy x.drawn x.reply := by
  induction h with
  | nil => cases hx
  | cons _ hreply _ ih =>
    rcases List.mem_cons.1 hx with rfl | hx
    · exact hreply
    · exact ih hx

end Exchange

/-! ## At the end of the source -/

def Lexer.endOf (file source : String) : Lexer := ⟨file, source.utf8ByteSize, 0, []⟩

/-- A cursor that has read the end of input stands where the source ends. -/
theorem Lexer.pulled_eq_endOf {file source : String} {k : Nat}
    (hk : (ofFile file source).tokens.length ≤ k) :
    (ofFile file source).pulled (k + 1) = endOf file source := by
  have hfile : ((ofFile file source).pulled k).file = file := pulled_file _ k
  have hnil : ((ofFile file source).pulled k).tokens = [] := by
    have hpending := congrArg TokenStream.pending ((ofFile file source).pulled_stream k)
    rw [stream_eq, stream_eq] at hpending
    exact hpending.trans (List.drop_eq_nil_of_le hk)
  obtain ⟨hcut, read, hrest, hoffset⟩ := (ofFile file source).pulled_split k
  have hsize : byteLength source.toList = source.utf8ByteSize := byteLength_toList source
  rw [show source.toList = _ from hrest, byteLength_append] at hsize
  rw [show (ofFile file source).offset = 0 from rfl, Nat.zero_add] at hoffset
  show ((ofFile file source).pulled k).scan.2 = endOf file source
  have hscans := ((ofFile file source).pulled k).scans_tokens
  generalize (ofFile file source).pulled k = l at *
  rw [hnil] at hscans
  cases hscans with
  | done hblanks =>
    have hend := l.byteLength_skipBlanks
    rw [hblanks, hoffset, hsize, byteLength_nil, Nat.add_zero] at hend
    rw [scan_of_nil hblanks, endOf, ← hend, ← hblanks, ← hfile, ← show l.cut = 0 from hcut]
    rfl

/-- The first members of a list that is continued without an end. -/
theorem map_getD_range {α : Type} (xs : List α) (last : α) (n : Nat) :
    (List.range n).map (fun i => xs.getD i last) = (xs ++ List.replicate n last).take n := by
  refine List.ext_getElem (by simp) fun i hi hi' => ?_
  simp only [List.length_map, List.length_range] at hi
  rcases Nat.lt_or_ge i xs.length with hlt | hge
  · simp [hlt, List.getElem_append_left]
  · simp [hge, List.getElem_append_right]

namespace Exchange

variable {file source : String} {l : Lexer}

/-- What is read of a source begins with its tokens and goes on with the end of input. -/
theorem drawn_prefix {served : List Served} (h : Exchange (.ofFile file source) served l) :
    ∃ n, served.flatMap Served.drawn <+: tokensIn file source ++
      List.replicate n (.endOfInput (Lexer.endOf file source).position) := by
  obtain ⟨hdrawn, -⟩ := drawn_eq (l := .ofFile file source) (k := 0) rfl h
  have htoken : (Lexer.ofFile file source).stream.token =
      fun i => (tokensIn file source).getD i (.endOfInput (Lexer.endOf file source).position) :=
    funext fun i => (endless_eq_token file source i).symm
  rw [← List.range_eq_range', htoken, map_getD_range] at hdrawn
  rw [hdrawn]
  exact ⟨_, List.take_prefix _ _⟩

/-- Once the end of input was read, there is nothing else. -/
theorem of_end {k : Nat} {served : List Served}
    (hk : (Lexer.ofFile file source).tokens.length ≤ k)
    (h : Exchange ((Lexer.ofFile file source).pulled (k + 1)) served l) :
    (∀ y ∈ served, y.drawn = [.endOfInput (Lexer.endOf file source).position] ∧
        y.reply = y.request.replyAtEnd (Lexer.endOf file source).position) ∧
      l = Lexer.endOf file source := by
  obtain ⟨hdrawn, hl⟩ := drawn_eq rfl h
  refine ⟨fun y hy => (h.completedBy hy).at_end fun t ht => ?_, ?_⟩
  · have hmem := List.mem_flatMap.2 ⟨y, hy, ht⟩
    rw [hdrawn] at hmem
    obtain ⟨i, hi, rfl⟩ := List.mem_map.1 hmem
    have hki := (List.mem_range'_1.1 hi).1
    rw [← endless_eq_token, endless_of_le (by omega)]
    rfl
  · rw [hl, Nat.add_right_comm]
    exact Lexer.pulled_eq_endOf (by omega)

/-- A reply that tells of the end of input, and everything after it. -/
theorem after_end {before after : List Served} {x : Served}
    (h : Exchange (.ofFile file source) (before ++ x :: after) l) (hend : x.reply.isEnd = true) :
    (∃ ts, (∀ t ∈ ts, t.kind ≠ .eof) ∧
        x.drawn = ts ++ [.endOfInput (Lexer.endOf file source).position]) ∧
      (∀ y ∈ after, y.drawn = [.endOfInput (Lexer.endOf file source).position] ∧
        y.reply = y.request.replyAtEnd (Lexer.endOf file source).position) ∧
      l = Lexer.endOf file source := by
  obtain ⟨m, hbefore, hrest⟩ := split h
  obtain ⟨-, hm⟩ := drawn_eq (l := .ofFile file source) (k := 0) rfl hbefore
  generalize 0 + (before.flatMap Served.drawn).length = k at hm
  subst hm
  cases hrest with
  | cons hpulls hreply hafter =>
    obtain ⟨ts, t, hdrawn, hts, ht⟩ := hreply.exists_end hend
    obtain ⟨htokens, rfl⟩ := hpulls.eq_tokens rfl
    have hlength : x.drawn.length = ts.length + 1 := by rw [hdrawn, List.length_append]; rfl
    rw [hlength, List.range'_1_concat, List.map_append, hdrawn] at htokens
    obtain ⟨-, hlast⟩ := List.append_inj' htokens rfl
    obtain rfl := List.singleton_inj.1 hlast
    rw [← endless_eq_token] at ht hdrawn
    have hk : (Lexer.ofFile file source).tokens.length ≤ k + ts.length := by
      refine Nat.le_of_not_lt fun hlt => ?_
      rw [endless_of_lt hlt] at ht
      exact (Lexer.scans_tokens _).kind_ne_eof (List.getElem_mem hlt) ht
    rw [endless_of_le hk] at hdrawn
    rw [hlength, ← Nat.add_assoc] at hafter
    exact ⟨⟨ts, hts, hdrawn⟩, hafter.of_end hk⟩

end Exchange

/-- All tokens of a source, and the cursor after them. -/
theorem Lexer.collect?_ofFile (file source : String) :
    (ofFile file source).collect? = some ((ofFile file source).tokens, endOf file source) := by
  obtain ⟨before, t, hpulls, -, -, hread⟩ := collect_pulls (l := ofFile file source) rfl #[]
  have hbefore : (ofFile file source).tokens = before := hread
  obtain ⟨-, hlast⟩ := Pulls.eq_tokens (l := ofFile file source) (k := 0) rfl hpulls
  rw [Nat.zero_add, List.length_append, ← hbefore, List.length_singleton,
    pulled_eq_endOf (Nat.le_refl _)] at hlast
  rw [← hlast]
  rfl

/-- **Every way of asking sees one stream.** Any requests, made one after another of a lexer that
nothing was asked of before, are served in one way, which is what the functions of the lexer
compute. The tokens that are read for them are in order, and without loss or repetition, the
beginning of the tokens of the source, of which the last, the end of input, goes on for ever. A
reply that tells of the end of input costs one end of input; all requests after it read one end of
input each, the same, and the cursor stands where the source ends. All tokens of a source that
nothing was asked of are those that the source is cut into, without the last. -/
theorem requests_share_stream (source : String) (requests : List Request) :
    ∃ served l, Exchange (.ofSource source) served l ∧ served.map Served.request = requests ∧
      (∀ served' l', Exchange (.ofSource source) served' l' →
        served'.map Served.request = requests → served' = served ∧ l' = l) ∧
      (Lexer.ofSource source).answerAll? requests = some (served.map Served.reply, l) ∧
      (∃ n, served.flatMap Served.drawn <+: tokenize source ++
        List.replicate n (.endOfInput (Lexer.endOf Lexer.defaultFile source).position)) ∧
      (∀ before x after, served = before ++ x :: after → x.reply.isEnd = true →
        (∃ ts, (∀ t ∈ ts, t.kind ≠ .eof) ∧
          x.drawn = ts ++ [.endOfInput (Lexer.endOf Lexer.defaultFile source).position]) ∧
        (∀ y ∈ after,
          y.drawn = [.endOfInput (Lexer.endOf Lexer.defaultFile source).position] ∧
          y.reply = y.request.replyAtEnd (Lexer.endOf Lexer.defaultFile source).position) ∧
        l = Lexer.endOf Lexer.defaultFile source) ∧
      (Lexer.ofSource source).collect? =
        some ((tokenize source).dropLast, Lexer.endOf Lexer.defaultFile source) := by
  have hcut : (Lexer.ofSource source).cut = 0 := rfl
  obtain ⟨served, l, hserved, hrequests, hreplies⟩ :=
    Exchange.exists_served (k := 0) hcut requests
  refine ⟨served, l, hserved, hrequests, fun served' l' h hrequests' => ?_, hreplies, ?_, ?_, ?_⟩
  · exact Exchange.unique (k := 0) hcut hserved h (hrequests'.trans hrequests.symm)
  · rw [tokenize_eq_tokensIn]
    exact hserved.drawn_prefix
  · rintro before x after rfl hend
    exact hserved.after_end hend
  · rw [tokenize_eq, List.dropLast_concat]
    exact Lexer.collect?_ofFile Lexer.defaultFile source

end FrontEnd
