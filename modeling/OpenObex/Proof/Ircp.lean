import OpenObex.Model.Ircp
import OpenObex.Lib.Wp

/-!
# The `ircp` server stays in its inbox

`Confined` says that the server is under its inbox, at a depth of at least `dirdepth`, and that all
it has created is below. The filter of names refuses a `..` everywhere but at the end of a name, and
counts a name as one level whatever it is. `Descends` is what a request must meet for that count to
be right.
-/

namespace OpenObex

open Files Prog

variable {os : Os} {base : Path} {made : List Path} {s : IrcpServer} {E : Empty → IrcpServer → Prop}

structure Confined (base : Path) (made : List Path) (s : IrcpServer) : Prop where
  under : s.sys.Under base made
  depth : base.length + s.dirdepth ≤ s.sys.cwd.length

/-- A confined server whose inbox is `base`. -/
structure InInbox (base : Path) (made : List Path) (s : IrcpServer) : Prop where
  confined : Confined base made s
  nonneg : 0 ≤ s.dirdepth
  bound : s.dirdepth < 2147483648
  absolute : s.inbox.head? = some slash
  home : s.sys.resolve s.inbox = some base

/-- The way down by a name that leads somewhere is longer than `dirdepth` says, and the counter has
room for one more. -/
def LeadsDown (base : Path) (s : IrcpServer) (name : Name) : Prop :=
  s.dirdepth < 2147483647 ∧
    ((s.sys.resolve name).isSome →
      base.length + s.dirdepth < s.sys.cwd.length + descent (components name))

/-- A SETPATH that goes down by a name the filter lets through does lead down. -/
def IrcpEvent.Descends (base : Path) (s : IrcpServer) (e : IrcpEvent) : Prop :=
  e.event = .req → e.cmd = obexCmdSetpath → ∀ flags constants name,
    e.object.nonhdrData = [flags, constants] → flags &&& 1 = 0 →
    nameOf e.object.headers = some name → name ≠ [] → ircpNameok name = true → LeadsDown base s name

/-- The server handles events, each of which meets `P` in the state it finds. -/
inductive Serves (os : Os) (P : IrcpServer → IrcpEvent → Prop) :
    IrcpServer → List IrcpEvent → IrcpServer → Prop
  | nil (s : IrcpServer) : Serves os P s [] s
  | cons {s s' s'' : IrcpServer} {e : IrcpEvent} {es : List IrcpEvent} :
      P s e → srvObexEvent os e s = .ok () s' → Serves os P s' es s'' → Serves os P s (e :: es) s''

/-! ## Names -/

theorem ircpNameok_spec {name : Name} (h : ircpNameok name = true) :
    name.head? ≠ some slash ∧ dotdot ∉ (components name).dropLast := by
  unfold ircpNameok at h
  split_ifs at h with habs hlen hpre hinf
  · refine ⟨habs, fun hm => ?_⟩
    rcases dotdot_shows hm with hs | hs
    · exact hpre hs
    · exact hinf hs
  · refine ⟨habs, fun hm => hlen ?_⟩
    rcases dotdot_shows hm with hs | hs
    · exact hs.length_le
    · exact Nat.le_of_succ_le hs.length_le

theorem diskname_spec {name : Name} (tail : Name) (hname : dotdot ∉ (components name).dropLast)
    (htail : slash ∉ tail) :
    (dot ++ slash :: (name ++ tail)).head? ≠ some slash ∧
      dotdot ∉ (components (dot ++ slash :: (name ++ tail))).dropLast := by
  have hne : ∀ z, components z ≠ [] := List.splitOn_ne_nil slash
  refine ⟨fun h => absurd (Option.some_inj.1 h) (by decide), ?_⟩
  rw [components_append, List.dropLast_append_of_ne_nil (hne _), components_append_tail htail]
  intro hm
  rcases List.mem_append.1 hm with hm | hm
  · exact absurd hm (by decide)
  · exact hname hm

/-! ## System calls -/

@[simp] theorem wp_system {α : Type} {call : Sys → α × Sys} {Q : α → IrcpServer → Prop} :
    wp (system call) Q E s ↔ Q (call s.sys).1 { s with sys := (call s.sys).2 } := Iff.rfl

@[simp] theorem wp_act {a : IrcpAct} {Q : Unit → IrcpServer → Prop} :
    wp (act a) Q E s ↔ Q () { s with acts := s.acts ++ [a] } := Iff.rfl

theorem InInbox.call (h : InInbox base made s) {t : Sys} (hu : t.Under base made)
    (hg : s.sys.Grows t) : InInbox base made { s with sys := t } where
  confined := by
    refine ⟨hu, ?_⟩
    show (base.length : Int) + s.dirdepth ≤ t.cwd.length
    rw [hg.cwd]
    exact h.confined.depth
  nonneg := h.nonneg
  bound := h.bound
  absolute := h.absolute
  home := Sys.resolve_mono hg.tree h.absolute h.home

theorem InInbox.tick (h : InInbox base made s) : InInbox base made { s with sys := s.sys.tick } :=
  h.call h.confined.under.tick (Sys.Grows.tick s.sys)

/-- `chdir` to a directory of the right depth. -/
theorem InInbox.move (h : InInbox base made s) {p : Path} {d : Int} (hp : base <+: p)
    (hd : 0 ≤ d) (hlt : d < 2147483648) (hdepth : base.length + d ≤ p.length) :
    InInbox base made { s with sys := { s.sys.tick with cwd := p }, dirdepth := d } where
  confined := ⟨h.confined.under.move hp, hdepth⟩
  nonneg := hd
  bound := hlt
  absolute := h.absolute
  home := Sys.resolve_mono (t := { s.sys.tick with cwd := p }) s.sys.tree.le_refl h.absolute h.home

/-- What is not the process or the depth does not matter. -/
theorem InInbox.other (h : InInbox base made s) {t : IrcpServer} (hsys : t.sys = s.sys)
    (hdepth : t.dirdepth = s.dirdepth) (hinbox : t.inbox = s.inbox) : InInbox base made t where
  confined := by
    refine ⟨hsys ▸ h.confined.under, ?_⟩
    rw [hsys, hdepth]
    exact h.confined.depth
  nonneg := hdepth ▸ h.nonneg
  bound := hdepth ▸ h.bound
  absolute := hinbox ▸ h.absolute
  home := by
    rw [hsys, hinbox]
    exact h.home

theorem keeps_act (a : IrcpAct) : Keeps (InInbox base made) E (act a) :=
  fun _ h => h.other rfl rfl rfl

theorem keeps_finish (success : Bool) : Keeps (InInbox base made) E (finish success) :=
  fun _ h => h.other rfl rfl rfl

/-! ## Files -/

theorem keeps_create {path : Name} (hrel : path.head? ≠ some slash)
    (hnames : dotdot ∉ (components path).dropLast) :
    Keeps (InInbox base made) E (system (create os path)) := by
  intro s h
  obtain ⟨hu, hg⟩ := under_create os h.confined.under hrel hnames
  exact h.call hu hg

theorem keeps_mkstemp {name : Name} (hname : dotdot ∉ (components name).dropLast) :
    Keeps (InInbox base made) E
      (system (mkstemp os (dot ++ slash :: (name ++ uniqueTail)))) := by
  intro s h
  obtain ⟨hlen, hslash⟩ := os.suffix_plain s.sys.clock
  have hcut : (dot ++ slash :: (name ++ uniqueTail)).take
      ((dot ++ slash :: (name ++ uniqueTail)).length - 6) ++ os.suffix s.sys.clock =
      dot ++ slash :: (name ++ 95 :: os.suffix s.sys.clock) := by
    have hsplit : dot ++ slash :: (name ++ uniqueTail) =
        (dot ++ slash :: (name ++ [95])) ++ List.replicate 6 88 := by
      simp only [uniqueTail, List.append_assoc, List.cons_append, List.nil_append]
    rw [hsplit, List.length_append, List.length_replicate, Nat.add_sub_cancel, List.take_left]
    simp only [List.append_assoc, List.cons_append, List.nil_append]
  have htail : slash ∉ 95 :: os.suffix s.sys.clock := by
    intro hm
    rcases List.mem_cons.1 hm with he | hm
    · exact absurd he (by decide)
    · exact hslash hm
  obtain ⟨hrel, hnames⟩ := diskname_spec _ hname htail
  obtain ⟨hu, hg⟩ := under_create os h.confined.under hrel hnames
  rw [wp_system, mkstemp, hcut]
  exact h.call hu hg

theorem keeps_ircpOpenSafe (name : Name) : Keeps (InInbox base made) E (ircpOpenSafe os [] name) := by
  unfold ircpOpenSafe
  refine Keeps.ite (fun _ => Keeps.pure _) fun hok => ?_
  rw [Bool.not_eq_false] at hok
  obtain ⟨-, hname⟩ := ircpNameok_spec hok
  obtain ⟨hrel, hnames⟩ := diskname_spec [] hname List.not_mem_nil
  rw [List.append_nil] at hrel hnames
  simp only [if_true]
  refine Keeps.ite (fun _ => Keeps.pure _) fun _ => ?_
  refine Keeps.bind (keeps_create hrel hnames) fun fd => ?_
  exact Keeps.ite (fun _ => keeps_mkstemp hname) fun _ => Keeps.pure _

theorem keeps_newFile (object : IrcpObject) : Keeps (InInbox base made) E (newFile os object) := by
  unfold newFile
  cases nameOf object.headers with
  | none =>
    exact Keeps.bind (keeps_act _) fun _ => Keeps.bind (keeps_act _) fun _ => Keeps.pure _
  | some name =>
    refine Keeps.bind (keeps_act _) fun _ => Keeps.bind (keeps_ircpOpenSafe name) fun fd => ?_
    exact Keeps.bind (Keeps.modify fun s h => h.other rfl rfl rfl) fun _ => Keeps.pure _

theorem keeps_saveStream (object : IrcpObject) :
    Keeps (InInbox base made) E (saveStream object) := by
  unfold saveStream
  refine Keeps.get_bind fun s _ => ?_
  cases object.stream with
  | none => exact Keeps.pure _
  | some body =>
    cases body with
    | nil =>
      refine Keeps.bind (keeps_act _) fun _ => ?_
      exact Keeps.bind (Keeps.modify fun s h => h.other rfl rfl rfl) fun _ => keeps_act _
    | cons x xs => exact keeps_act _

theorem keeps_ircpSrvReceive (object : IrcpObject) (finished : Bool) :
    Keeps (InInbox base made) E (ircpSrvReceive os object finished) := by
  unfold ircpSrvReceive
  refine Keeps.get_bind fun s _ => Keeps.bind ?_ fun refused => ?_
  · refine Keeps.ite (fun _ => ?_) fun _ => Keeps.pure _
    exact Keeps.bind (keeps_newFile object) fun _ => Keeps.pure _
  · refine Keeps.ite (fun _ => Keeps.pure _) fun _ => ?_
    refine Keeps.ite (fun _ => Keeps.pure _) fun _ => Keeps.get_bind fun s _ => ?_
    refine Keeps.ite (fun _ => ?_) fun _ => Keeps.pure _
    exact Keeps.bind (keeps_saveStream object) fun _ => Keeps.pure _

/-! ## Directories -/

/-- What is in the buffer is the name, or nothing the system takes. -/
theorem take_maxpathlen (name : Name) :
    name.take maxpathlen = name ∨ Sys.valid (name.take maxpathlen) = false := by
  by_cases hlen : name.length < maxpathlen
  · exact Or.inl (List.take_of_length_le (Nat.le_of_lt hlen))
  · right
    have hfull : (name.take maxpathlen).length = maxpathlen := by
      rw [List.length_take]
      omega
    exact decide_eq_false fun hv => absurd hv.2 (by rw [hfull]; exact Nat.lt_irrefl _)

/-- What a directory that is there or has been made means for the way down. -/
theorem wp_ircpCheckdir (h : InInbox base made s) (name : Name) {Q : Int → IrcpServer → Prop}
    (hq : ∀ ret s', InInbox base made s' → s'.dirdepth = s.dirdepth → s'.sys.cwd = s.sys.cwd →
      (0 ≤ ret → ircpNameok name = true ∧
        ((s.sys.resolve name).isSome ∨ 0 < descent (components name))) → Q ret s') :
    wp (ircpCheckdir os [] name { create := true }) Q E s := by
  unfold ircpCheckdir
  by_cases hok : ircpNameok name = true
  · obtain ⟨hrel, hnames⟩ := ircpNameok_spec hok
    rw [if_neg (fun hn => by simp [hok] at hn), if_neg (fun hn => hn rfl), wp_bind, wp_system]
    cases hstat : (stat os (name.take maxpathlen) s.sys).1 with
    | some k =>
      have hsome : (s.sys.resolve name).isSome := by
        have hr := resolve_of_stat hstat
        rcases take_maxpathlen name with hn | hn
        · rwa [hn] at hr
        · rw [Sys.resolve, if_neg (by rw [hn]; exact Bool.false_ne_true)] at hr
          cases hr
      cases k with
      | dir => exact hq _ _ h.tick rfl rfl fun _ => ⟨hok, Or.inl hsome⟩
      | file => exact hq _ _ h.tick rfl rfl fun hge => absurd hge (by decide)
    | none =>
      show wp (system (mkdir os (name.take maxpathlen)) >>= _) Q E { s with sys := s.sys.tick }
      rw [wp_bind, wp_system]
      rcases take_maxpathlen name with hn | hn
      · obtain ⟨hu, hg⟩ := under_mkdir os h.tick.confined.under hrel hnames
        rw [hn]
        refine hq _ _ (h.tick.call hu hg) rfl hg.cwd fun hge => ⟨hok, Or.inr ?_⟩
        refine mkdir_descent os s.sys.tick hnames ?_
        by_contra hfail
        rw [if_neg hfail] at hge
        exact absurd hge (by decide)
      · have hfail : (0 : Int) ≤ -1 → False := by decide
        rw [mkdir_invalid hn]
        exact hq _ _ h.tick.tick rfl rfl fun hge => (hfail hge).elim
  · rw [if_pos ⟨by decide, Bool.eq_false_iff.2 hok⟩, wp_pure]
    exact hq _ _ h rfl rfl fun hge => absurd hge (by decide)

theorem keeps_setpathUp : Keeps (InInbox base made) E (setpathUp os) := by
  unfold setpathUp
  intro s h
  rw [wp_bind, wp_get, wp_ite]
  refine ⟨fun _ => h, fun hd => ?_⟩
  rw [wp_bind, wp_system]
  obtain ⟨p, hp, hmove⟩ | hstay := chdir_spec os s.sys dotdot
  · have hdepth := h.confined.depth
    have hpos := h.nonneg
    have hbound := h.bound
    have hup : p = s.sys.cwd.dropLast := by
      obtain ⟨q, hq, he⟩ := Option.bind_eq_some_iff.1 (Sys.resolve_walk (by decide) hp)
      rw [← Option.some_inj.1 he, Tree.enter_up hq]
    have hlen : p.length = s.sys.cwd.length - 1 := by rw [hup, List.length_dropLast]
    have hbase : base <+: p := by
      refine List.prefix_of_prefix_length_le h.confined.under.cwd ?_ (by omega)
      rw [hup]
      exact List.dropLast_prefix _
    have hcount : i32 (s.dirdepth - 1) = s.dirdepth - 1 := by
      unfold i32
      omega
    have hmoved : InInbox base made { s with
        sys := { s.sys.tick with cwd := p }
        dirdepth := i32 (s.dirdepth - 1) } := by
      rw [hcount]
      exact h.move hbase (by omega) (by omega) (by omega)
    rw [hmove]
    exact hmoved
  · rw [hstay]
    exact h.tick

theorem keeps_setpathRoot : Keeps (InInbox base made) E (setpathRoot os) := by
  unfold setpathRoot
  intro s h
  rw [wp_bind, wp_get, wp_bind, wp_system]
  obtain ⟨p, hp, hmove⟩ | hstay := chdir_spec os s.sys s.inbox
  · have hhome : p = base := Option.some_inj.1 (hp.symm.trans h.home)
    rw [hmove, hhome]
    exact h.move (List.prefix_refl _) (by decide) (by decide) (by simp)
  · rw [hstay]
    exact h.tick

theorem wp_setpathDown (h : InInbox base made s) {name : Name}
    (hname : ircpNameok name = true → LeadsDown base s name) :
    wp (setpathDown os name) (fun _ => InInbox base made) E s := by
  unfold setpathDown
  rw [wp_bind]
  refine wp_ircpCheckdir h name fun ret s' h' hdepth' hcwd' hret => ?_
  rw [wp_ite]
  refine ⟨fun _ => h', fun hge => ?_⟩
  obtain ⟨hok, hdown⟩ := hret (by omega)
  obtain ⟨hrel, hnames⟩ := ircpNameok_spec hok
  obtain ⟨hroom, hleads⟩ := hname hok
  have hdepth := h.confined.depth
  have hlevel : (base.length : Int) + s.dirdepth < s.sys.cwd.length + descent (components name) := by
    rcases hdown with hthere | hmade
    · exact hleads hthere
    · omega
  rw [wp_bind, wp_system]
  obtain ⟨p, hp, hmove⟩ | hstay := chdir_spec os s'.sys name
  · have hpos := h.nonneg
    obtain ⟨hbase, hlen⟩ := Tree.walk_below hnames (Sys.resolve_walk hrel hp)
      h'.confined.under.cwd (by rw [hcwd']; omega)
    rw [hcwd'] at hlen
    have hcount : i32 (s'.dirdepth + 1) = s.dirdepth + 1 := by
      unfold i32
      omega
    have hmoved : InInbox base made { s' with
        sys := { s'.sys.tick with cwd := p }
        dirdepth := i32 (s'.dirdepth + 1) } := by
      rw [hcount]
      exact h'.move hbase (by omega) (by omega) (by omega)
    rw [hmove]
    exact hmoved
  · rw [hstay]
    exact h'.tick

/-- A SETPATH keeps the server in if it leads down where it goes down. -/
theorem wp_ircpSrvSetpath (h : InInbox base made s) {object : IrcpObject}
    (hdown : ∀ flags constants name, object.nonhdrData = [flags, constants] → flags &&& 1 = 0 →
      nameOf object.headers = some name → name ≠ [] → ircpNameok name = true →
      LeadsDown base s name) :
    wp (ircpSrvSetpath os object) (fun _ => InInbox base made) E s := by
  unfold ircpSrvSetpath
  split
  · rename_i flags constants hdata
    refine wp_seq (P := fun _ => InInbox base made) ?_ fun ret s' h' => ?_
    · rw [wp_ite]
      refine ⟨fun _ => keeps_setpathUp s h, fun hflags => ?_⟩
      cases hn : nameOf object.headers with
      | none => exact h
      | some name =>
        dsimp only
        rw [wp_ite]
        refine ⟨fun _ => keeps_setpathRoot s h, fun hne => ?_⟩
        exact wp_setpathDown h (hdown flags constants name hdata (not_not.1 hflags) hn hne)
    · rw [wp_ite]
      exact ⟨fun _ => h'.other rfl rfl rfl, fun _ => h'⟩
  · exact h

/-! ## Events -/

theorem wp_srvRequest (h : InInbox base made s) {e : IrcpEvent} (hreq : e.event = .req)
    (hdown : e.Descends base s) : wp (srvRequest os e) (fun _ => InInbox base made) E s := by
  have hsay : ∀ a : IrcpAct, Keeps (InInbox base made) E (do act a; pure (1 : Int)) :=
    fun a => Keeps.bind (keeps_act a) fun _ => Keeps.pure _
  unfold srvRequest
  split_ifs with hconn hdisc hput hset
  · exact hsay _ s h
  · exact hsay _ s h
  · exact keeps_ircpSrvReceive _ _ s h
  · exact wp_ircpSrvSetpath h (hdown hreq hset)
  · exact h

theorem keeps_srvRequestHint (e : IrcpEvent) : Keeps (InInbox base made) E (srvRequestHint e) := by
  unfold srvRequestHint
  refine Keeps.ite (fun _ => ?_) fun _ => Keeps.ite (fun _ => keeps_act _) fun _ => keeps_act _
  exact Keeps.bind (keeps_act _) fun _ => keeps_act _

theorem wp_srvObexEvent (h : InInbox base made s) {e : IrcpEvent} (hdown : e.Descends base s) :
    wp (srvObexEvent os e) (fun _ => InInbox base made) E s := by
  unfold srvObexEvent
  cases hev : e.event with
  | streamavail => exact wp_seq (keeps_ircpSrvReceive _ _ s h) fun _ _ h' => h'
  | req =>
    refine wp_seq (wp_srvRequest h hev hdown) fun ret s' h' => ?_
    rw [wp_ite]
    exact ⟨fun _ => keeps_finish false s' h', fun _ => h'⟩
  | reqhint => exact keeps_srvRequestHint e s h
  | reqdone => exact Keeps.ite (fun _ => keeps_finish true) (fun _ => Keeps.pure _) s h
  | linkerr => exact keeps_finish false s h
  | _ => exact h

theorem InInbox.serves {s' : IrcpServer} {es : List IrcpEvent} (h : InInbox base made s)
    (hrun : Serves os (fun s e => e.Descends base s) s es s') : InInbox base made s' := by
  induction hrun with
  | nil => exact h
  | cons hdown hstep _ ih =>
    exact ih (wp_ok (wp_srvObexEvent (E := fun _ _ => False) h hdown) hstep)

/-! ## Entering -/

theorem keeps_checkdir_inbox {P : IrcpServer → Prop} (hP : ∀ s, P s → P { s with sys := s.sys.tick })
    (inbox : Name) : Keeps P E (ircpCheckdir os [] inbox { allowabs := true }) := by
  unfold ircpCheckdir
  intro s h
  rw [if_neg (fun hn => hn.1 rfl), if_neg (fun hn => hn rfl), wp_bind, wp_system]
  cases hstat : (stat os (inbox.take maxpathlen) s.sys).1 with
  | some k => cases k <;> exact hP s h
  | none => exact hP s h

theorem InInbox.start (habs : s.inbox.head? = some slash) (hd : s.dirdepth = 0)
    (hhome : s.sys.resolve s.inbox = some s.sys.cwd) : InInbox s.sys.cwd s.sys.created s where
  confined := ⟨Sys.Under.of_cwd (List.prefix_refl _), by rw [hd]; omega⟩
  nonneg := Int.le_of_eq hd.symm
  bound := by rw [hd]; decide
  absolute := habs
  home := hhome

theorem wp_ircpSrvEnter {inbox : Name} (habs : inbox.head? = some slash) (registered : Bool) :
    wp (ircpSrvEnter os inbox registered)
      (fun entered s' => entered = true → InInbox s'.sys.cwd s'.sys.created s') E s := by
  unfold ircpSrvEnter
  refine wp_seq (keeps_checkdir_inbox (P := fun _ => True) (fun _ _ => trivial) inbox s trivial)
    fun ret s' _ => ?_
  rw [wp_ite]
  refine ⟨fun _ => ?_, fun _ => ?_⟩
  · rw [wp_bind, wp_act, wp_pure]
    exact fun hf => absurd hf Bool.false_ne_true
  · rw [wp_bind, wp_system]
    obtain ⟨p, hp, hmove⟩ | hstay := chdir_spec os s'.sys inbox
    · rw [hmove, if_pos rfl, wp_bind, wp_modify, wp_ite]
      refine ⟨fun _ _ => ?_, fun _ hf => absurd hf Bool.false_ne_true⟩
      exact InInbox.start habs rfl
        (Sys.resolve_mono (t := { s'.sys.tick with cwd := p }) s'.sys.tree.le_refl habs hp)
    · rw [hstay, if_neg Bool.false_ne_true]
      exact fun hf => absurd hf Bool.false_ne_true

/-- The server stays in its inbox as long as each SETPATH that goes down leads down. -/
theorem ircp_confined {os : Os} {inbox : Name} {registered : Bool} {s s₀ s₁ : IrcpServer}
    {es : List IrcpEvent} (henter : ircpSrvEnter os inbox registered s = .ok true s₀)
    (habs : inbox.head? = some slash)
    (hrun : Serves os (fun t e => e.Descends s₀.sys.cwd t) s₀ es s₁) :
    Confined s₀.sys.cwd s₀.sys.created s₁ := by
  have hstart : InInbox s₀.sys.cwd s₀.sys.created s₀ :=
    wp_ok (wp_ircpSrvEnter (E := fun _ _ => False) habs registered) henter rfl
  exact (hstart.serves hrun).confined

/-! ## A server at `/in` -/

def rootTree : Tree where
  node p := if p = [] then some .dir else none
  root := rfl
  parent := by
    intro p name h
    rw [if_neg (by simp)] at h
    cases h

/-- An empty inbox, on a system where nothing fails. -/
def inboxServer : IrcpServer where
  finished := false
  success := false
  inbox := []
  fd := -1
  dirdepth := 0
  sys := { tree := rootTree.add [] [105, 110] .dir ⟨rfl, rfl⟩, cwd := [], clock := 0, created := [] }
  acts := []

def willingOs : Os where
  deny _ := false
  fd _ := 3
  suffix _ := List.replicate 6 97
  suffix_plain := fun _ => by decide

/-- SETPATH to `name`. -/
def setpathEvent (name : Name) : IrcpEvent :=
  ⟨.req, obexCmdSetpath, ⟨[0, 0], [(obexHdrName, some name)], none⟩⟩

theorem ircpM_ok {α : Type} (m : IrcpM α) (s : IrcpServer) : ∃ a s', m s = .ok a s' := by
  cases hm : m s with
  | ok a s' => exact ⟨a, s', rfl⟩
  | error e _ => exact e.elim

/-- A request for `a` leads down. -/
theorem ircp_confined_a :
    ∃ s₀ s₁, ircpSrvEnter willingOs [47, 105, 110] true inboxServer = .ok true s₀ ∧
    Serves willingOs (fun t e => e.Descends s₀.sys.cwd t) s₀ [setpathEvent [97]] s₁ ∧
    Confined s₀.sys.cwd s₀.sys.created s₁ := by
  obtain ⟨s₀, henter, hd⟩ : ∃ s₀,
      ircpSrvEnter willingOs [47, 105, 110] true inboxServer = .ok true s₀ ∧ s₀.dirdepth = 0 :=
    ⟨_, rfl, rfl⟩
  obtain ⟨_, s₁, hstep⟩ := ircpM_ok (srvObexEvent willingOs (setpathEvent [97])) s₀
  have hrun : Serves willingOs (fun t e => e.Descends s₀.sys.cwd t) s₀ [setpathEvent [97]] s₁ := by
    refine Serves.cons ?_ hstep (Serves.nil s₁)
    intro _ _ flags constants name _ _ hname _ _
    obtain rfl : [97] = name := Option.some_inj.1 hname
    have hdescent : descent (components [97]) = 1 := by decide
    rw [LeadsDown, hd, hdescent]
    exact ⟨by decide, fun _ => by omega⟩
  exact ⟨s₀, s₁, henter, hrun, ircp_confined henter rfl hrun⟩

/-- A request for `..` takes the server out. -/
theorem dotdot_escapes : ¬ ∀ (os : Os) (inbox : Name) (registered : Bool) (s s₀ s₁ : IrcpServer)
    (es : List IrcpEvent), ircpSrvEnter os inbox registered s = .ok true s₀ →
    inbox.head? = some slash →
    Serves os (fun _ e => e.event = .req ∧ e.cmd = obexCmdSetpath) s₀ es s₁ →
    Confined s₀.sys.cwd s₀.sys.created s₁ := by
  intro h
  obtain ⟨s₀, s₁, henter, hstep, hcwd, hcwd'⟩ : ∃ s₀ s₁,
      ircpSrvEnter willingOs [47, 105, 110] true inboxServer = .ok true s₀ ∧
      srvObexEvent willingOs (setpathEvent dotdot) s₀ = .ok () s₁ ∧
      s₀.sys.cwd = [[105, 110]] ∧ s₁.sys.cwd = [] := ⟨_, _, rfl, rfl, rfl, rfl⟩
  have hout := (h willingOs [47, 105, 110] true inboxServer s₀ s₁ [setpathEvent dotdot] henter rfl
    (Serves.cons ⟨rfl, rfl⟩ hstep (Serves.nil s₁))).under.cwd
  rw [hcwd, hcwd'] at hout
  exact absurd hout (by decide)

end OpenObex
