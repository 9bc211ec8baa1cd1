import SystemsProjects.Lib.Steps
import SystemsProjects.Fs5600.Create
import SystemsProjects.Fs5600.Accounting
import SystemsProjects.Fs5600.Remount
import SystemsProjects.Fs5600.Rename
import SystemsProjects.Fs5600.Secrecy
import SystemsProjects.Fs5600.Listing
import SystemsProjects.Fs5600.LongNames
import SystemsProjects.Fs5600.NameBuffers
import SystemsProjects.Fs5600.Space
import SystemsProjects.Fs5600.Errors
import SystemsProjects.Fs5600.Diskfmt
import SystemsProjects.Fs5600.FilesRun
import SystemsProjects.Fs5600.GendiskTree
import SystemsProjects.Fs5600.ReadimgTree
import SystemsProjects.Kvstore.Refine
import SystemsProjects.Kvstore.Independence
import SystemsProjects.Cmdparse.Grammar
import SystemsProjects.Cmdparse.Roundtrip
import SystemsProjects.Cmdparse.Wellformed
import SystemsProjects.Cmdparse.Separators
import SystemsProjects.Cmdparse.Freeing
import SystemsProjects.Cmdrun.Duplicates
import SystemsProjects.Cmdrun.Leaks
import SystemsProjects.Cmdrun.Meaning
import SystemsProjects.Dbserver.Monitor
import SystemsProjects.Dbserver.Serve
import SystemsProjects.Dbserver.Receive
import SystemsProjects.Dbserver.Exchange
import SystemsProjects.Weensyos.Scheduling
import SystemsProjects.Weensyos.Virtual
import SystemsProjects.Weensyos.Console
import SystemsProjects.Weensyos.UserPanic
import SystemsProjects.Weensyos.RangePerm
import SystemsProjects.Weensyos.Ptiter
import SystemsProjects.Weensyos.KernelPanic
import SystemsProjects.Weensyos.Bootloader
import SystemsProjects.CipherQueue.Reports
import SystemsProjects.CipherQueue.RoundTrip
