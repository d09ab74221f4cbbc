import YaojJudger.Posix.Rules
import YaojJudger.Interactive
import YaojJudger.Verdict
import YaojJudger.TempDir
import YaojJudger.ForkExec
import YaojJudger.Confine
import YaojJudger.Reap
import YaojJudger.Handshake
import YaojJudger.Main
import YaojJudger.Usage
import YaojJudger.CpuLimit
import YaojJudger.Inherit
import YaojJudger.ExecPolicy
import YaojJudger.Killer
import YaojJudger.Timeout
import YaojJudger.Rewrite
import YaojJudger.Overrun
import YaojJudger.BuiltinFiles
import YaojJudger.Negative
import YaojJudger.Handles
import YaojJudger.Independent
import YaojJudger.HookChain
import YaojJudger.LimitTable
import YaojJudger.Redirect
import YaojJudger.Stamps
import YaojJudger.Buffer
import YaojJudger.Lookup
import YaojJudger.Rmtree
import YaojJudger.Kafel.Library
